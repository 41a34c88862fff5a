import X64Backend.Proofs.Alloc.Spilling
import X64Backend.Proofs.Machine.Straight

/-! # Instructions on registers with slots

Before an instruction some registers are fetched from their slots into registers that are free
for the moment, and behind it a result goes back to its slot. Other registers are read and
written in their slots. Here it is said which code of this form stands for an instruction,
wherever the slots are.
-/

namespace X64Backend.Alloc

open Asm List

/-- Registers, and the slots whose words they are loaded with. -/
abbrev Fetches := List (Reg × Nat)

/-- The loads, from where the slots are. -/
def Fetches.code (loc : Nat → Operand) (fs : Fetches) : List Instr :=
  fs.map fun p => .mov (.reg p.1) (loc p.2)

/-- Slots of some registers are fetched, into different registers of `U`. -/
structure Fetching (slots : Slots) (U : Reg → Prop) (rs : List Reg) (fs : Fetches) : Prop where
  scratch : ∀ p ∈ fs, U p.1
  slot : ∀ p ∈ fs, ∃ r ∈ rs, slots[r.name]? = some p.2
  nodup : (fs.map Prod.fst).Nodup

/-! ## What stands for an operand -/

section

variable (loc : Nat → Operand) (slots : Slots) (U : Reg → Prop) (fs : Fetches)

/-- A register is itself, or one that it was fetched into. -/
inductive Carried : Reg → Reg → Prop
  | kept {r : Reg} (h : slots[r.name]? = none) : Carried r r
  | fetched {r q : Reg} {k : Nat} (h : slots[r.name]? = some k) (hq : (q, k) ∈ fs) : Carried r q

/-- What stands for a base. -/
inductive CarriedBase : Option Reg → Option Reg → Prop
  | none : CarriedBase none none
  | rip : CarriedBase (some .rip) (some .rip)
  | reg {r q : Reg} (hr : r ≠ .rip) (hq : q ≠ .rip) (h : Carried slots fs r q) :
      CarriedBase (some r) (some q)

/-- What stands for an index. -/
inductive CarriedIndex : Option (Reg × Int64) → Option (Reg × Int64) → Prop
  | none : CarriedIndex none none
  | reg {r q : Reg} {scale : Int64} (h : Carried slots fs r q) :
      CarriedIndex (some (r, scale)) (some (q, scale))

/-- What stands for a word of memory. -/
structure CarriedMem (m n : Mem) : Prop where
  base : CarriedBase slots fs m.base n.base
  index : CarriedIndex slots fs m.index n.index
  disp : n.disp = m.disp

/-- What stands for an operand that is read. -/
inductive ReadAs : Operand → Operand → Prop
  | reg {r q : Reg} (h : Carried slots fs r q) : ReadAs (.reg r) (.reg q)
  | slot {r : Reg} {k : Nat} (h : slots[r.name]? = some k) : ReadAs (.reg r) (loc k)
  | mem {m n : Mem} (h : CarriedMem slots fs m n) : ReadAs (.mem m) (.mem n)
  | const (c : Const) : ReadAs (.const c) (.const c)
  | absent : ReadAs .absent .absent

/-- What stands for an operand that is written, or read and written. -/
inductive PlacedAs : Operand → Operand → Prop
  | reg {r : Reg} (h : slots[r.name]? = none) : PlacedAs (.reg r) (.reg r)
  | slot {r : Reg} {k : Nat} (h : slots[r.name]? = some k) : PlacedAs (.reg r) (loc k)
  | mem {m n : Mem} (h : CarriedMem slots fs m n) : PlacedAs (.mem m) (.mem n)
  | const (c : Const) : PlacedAs (.const c) (.const c)
  | absent : PlacedAs .absent .absent

/-- A register that is written instead of another one, and what stores it. -/
inductive WrittenAs : Reg → Reg → List Instr → Prop
  | kept {d : Reg} (h : slots[d.name]? = none) : WrittenAs d d []
  | stored {d q : Reg} {k : Nat} (h : slots[d.name]? = some k) (hq : U q) :
      WrittenAs d q [.mov (loc k) (.reg q)]

/-- A register that is worked on instead of another one, and what stores it. -/
inductive UpdatedAs : Reg → Reg → List Instr → Prop
  | kept {d : Reg} (h : slots[d.name]? = none) : UpdatedAs d d []
  | stored {d q : Reg} {k : Nat} (h : slots[d.name]? = some k) (hq : (q, k) ∈ fs) :
      UpdatedAs d q [.mov (loc k) (.reg q)]

/-- Instructions that have no operands to alter. -/
def isBare : Instr → Bool
  | .jump _ _ | .ret | .cqo | .popRbp | .label _ | .comment _ | .absent => true
  | _ => false

/-- An instruction behind fetches that stands for another one, and what follows it. -/
inductive Core : Instr → Instr → List Instr → Prop
  | movAbs {d e : Reg} {v : Int64} {store : List Instr} (h : WrittenAs loc slots U d e store) :
      Core (.movAbs d v) (.movAbs e v) store
  | mov {d e a b : Operand} (hd : PlacedAs loc slots fs d e) (ha : ReadAs loc slots fs a b) :
      Core (.mov d a) (.mov e b) []
  | movReg {d e : Reg} {a b : Operand} {store : List Instr} (h : WrittenAs loc slots U d e store)
      (ha : ReadAs loc slots fs a b) : Core (.mov (.reg d) a) (.mov (.reg e) b) store
  | lea {d e : Reg} {m n : Mem} {store : List Instr} (h : WrittenAs loc slots U d e store)
      (hm : CarriedMem slots fs m n) : Core (.lea d m) (.lea e n) store
  | cmp {a b c d : Operand} (ha : ReadAs loc slots fs a b) (hc : ReadAs loc slots fs c d) :
      Core (.cmp a c) (.cmp b d) []
  | set {c : Cond} {d e : Reg} {store : List Instr} (h : WrittenAs loc slots U d e store) :
      Core (.set c d) (.set c e) store
  | call {a b : Operand} (ha : ReadAs loc slots fs a b) : Core (.call a) (.call b) []
  | arith {op : Arith} {d e a b : Operand} (hd : PlacedAs loc slots fs d e)
      (ha : ReadAs loc slots fs a b) : Core (.arith op d a) (.arith op e b) []
  | arithReg {op : Arith} {d e : Reg} {a b : Operand} {store : List Instr}
      (h : UpdatedAs loc slots fs d e store) (ha : ReadAs loc slots fs a b) :
      Core (.arith op (.reg d) a) (.arith op (.reg e) b) store
  | imul {d e : Reg} {a b : Operand} {store : List Instr} (h : UpdatedAs loc slots fs d e store)
      (ha : ReadAs loc slots fs a b) : Core (.imul d a) (.imul e b) store
  | imul3 {d e : Reg} {a b : Operand} {v : Int64} {store : List Instr}
      (h : WrittenAs loc slots U d e store) (ha : ReadAs loc slots fs a b) :
      Core (.imul3 d a v) (.imul3 e b v) store
  | idiv {a b : Operand} (ha : ReadAs loc slots fs a b) : Core (.idiv a) (.idiv b) []
  | neg {d e : Operand} (hd : PlacedAs loc slots fs d e) : Core (.neg d) (.neg e) []
  | shl {d e : Operand} {v : Int64} (hd : PlacedAs loc slots fs d e) : Core (.shl d v) (.shl e v) []
  | push {a b : Operand} (ha : ReadAs loc slots fs a b) : Core (.push a) (.push b) []
  | bare {x : Instr} (hx : isBare x = true) : Core x x []

/-- Code that stands for an instruction. An operation on a slot with a word of memory goes
through a register. -/
inductive Block : Instr → List Instr → Prop
  | around {fs : Fetches} {x y : Instr} {store : List Instr}
      (hfs : Fetching slots U x.namedRegs fs) (h : Core loc slots U fs x y store) :
      Block x (fs.code loc ++ y :: store)
  | relayed {fs : Fetches} {op : Arith} {d q : Reg} {a b : Operand} {k : Nat}
      (hfs : Fetching slots U (Instr.arith op (.reg d) a).namedRegs fs)
      (hd : slots[d.name]? = some k) (hq : U q) (ha : ReadAs loc slots fs a b)
      (hb : ∀ c, b ≠ .const c) : Block (.arith op (.reg d) a)
        (fs.code loc ++ [.mov (.reg q) b, .arith op (loc k) (.reg q)])

end

section

variable {loc : Nat → Operand} {slots : Slots} {U : Reg → Prop} {fs : Fetches}
variable {d : Reg} {store : List Instr} {x : Instr}

theorem PlacedAs.readAs {d e : Operand} (h : PlacedAs loc slots fs d e) :
    ReadAs loc slots fs d e := by
  cases h with
  | reg h => exact .reg (.kept h)
  | slot h => exact .slot h
  | mem h => exact .mem h
  | const c => exact .const c
  | absent => exact .absent

theorem UpdatedAs.writtenAs {rs : List Reg} {e : Reg} (h : UpdatedAs loc slots fs d e store)
    (hf : Fetching slots U rs fs) : WrittenAs loc slots U d e store := by
  cases h with
  | kept h => exact .kept h
  | stored h hq => exact .stored h (hf.scratch _ hq)

theorem WrittenAs.mono {V : Reg → Prop} {e : Reg} (h : WrittenAs loc slots U d e store)
    (hUV : ∀ r, U r → V r) : WrittenAs loc slots V d e store := by
  cases h with
  | kept h => exact .kept h
  | stored h hq => exact .stored h (hUV _ hq)

/-! ## Registers without slots -/

section

variable {x y : Instr} {store block : List Instr}

theorem Carried.eq_of_none {r q : Reg} (h : Carried slots fs r q) (hr : slots[r.name]? = none) :
    q = r := by
  cases h with
  | kept => rfl
  | fetched h => exact nomatch hr.symm.trans h

theorem CarriedMem.eq_of_none {m n : Mem} (h : CarriedMem slots fs m n)
    (hm : ∀ r ∈ m.namedRegs, slots[r.name]? = none) : n = m := by
  obtain ⟨base, index, disp⟩ := m
  obtain ⟨base', index', disp'⟩ := n
  obtain rfl : disp' = disp := h.disp
  have hbase : base' = base := by
    cases h.base with
    | none | rip => rfl
    | reg _ _ hc => rw [hc.eq_of_none (hm _ (by simp [Mem.namedRegs]))]
  have hindex : index' = index := by
    cases h.index with
    | none => rfl
    | reg hc => rw [hc.eq_of_none (hm _ (by simp [Mem.namedRegs]))]
  rw [hbase, hindex]

theorem ReadAs.eq_of_none {a b : Operand} (h : ReadAs loc slots fs a b)
    (ha : ∀ r ∈ a.namedRegs, slots[r.name]? = none) : b = a := by
  cases h with
  | reg h => rw [h.eq_of_none (ha _ mem_cons_self)]
  | slot h => exact nomatch (ha _ mem_cons_self).symm.trans h
  | mem h => rw [h.eq_of_none ha]
  | const c | absent => rfl

theorem WrittenAs.eq_of_none {d e : Reg} (h : WrittenAs loc slots U d e store)
    (hd : slots[d.name]? = none) : e = d ∧ store = [] := by
  cases h with
  | kept => exact ⟨rfl, rfl⟩
  | stored h => exact nomatch hd.symm.trans h

theorem Core.eq_of_none (h : Core loc slots U fs x y store) (hfs : Fetching slots U x.namedRegs fs)
    (hnone : ∀ r ∈ x.namedRegs, slots[r.name]? = none) : y = x ∧ store = [] := by
  have hread : ∀ {a b : Operand}, ReadAs loc slots fs a b → (∀ r ∈ a.namedRegs, r ∈ x.namedRegs) →
      b = a := fun h ha => h.eq_of_none fun r hr => hnone r (ha r hr)
  have hwritten : ∀ {d e : Reg}, WrittenAs loc slots U d e store → d ∈ x.namedRegs →
      e = d ∧ store = [] := fun h hd => h.eq_of_none (hnone _ hd)
  cases h with
  | movAbs h | set h =>
    obtain ⟨rfl, rfl⟩ := hwritten h mem_cons_self
    exact ⟨rfl, rfl⟩
  | mov hd ha | arith hd ha =>
    rw [hread hd.readAs fun _ => mem_append_left _, hread ha fun _ => mem_append_right _]
    exact ⟨rfl, rfl⟩
  | movReg h ha | imul3 h ha =>
    obtain ⟨rfl, rfl⟩ := hwritten h mem_cons_self
    rw [hread ha fun _ => mem_cons_of_mem _]
    exact ⟨rfl, rfl⟩
  | lea h hm =>
    obtain ⟨rfl, rfl⟩ := hwritten h mem_cons_self
    rw [hm.eq_of_none fun r hr => hnone r (mem_cons_of_mem _ hr)]
    exact ⟨rfl, rfl⟩
  | cmp ha hc =>
    rw [hread ha fun _ => mem_append_left _, hread hc fun _ => mem_append_right _]
    exact ⟨rfl, rfl⟩
  | arithReg h ha | imul h ha =>
    obtain ⟨rfl, rfl⟩ := hwritten (h.writtenAs hfs) mem_cons_self
    rw [hread ha fun _ => mem_cons_of_mem _]
    exact ⟨rfl, rfl⟩
  | call ha | idiv ha | push ha =>
    rw [hread ha fun _ h => h]
    exact ⟨rfl, rfl⟩
  | neg hd | shl hd =>
    rw [hread hd.readAs fun _ h => h]
    exact ⟨rfl, rfl⟩
  | bare => exact ⟨rfl, rfl⟩

/-- An instruction that names no register with a slot stays. -/
theorem Block.eq_of_none (h : Block loc slots U x block)
    (hnone : ∀ r ∈ x.namedRegs, slots[r.name]? = none) : block = [x] := by
  cases h with
  | @around fs _ y store hfs hcore =>
    obtain rfl : fs = [] := by
      rw [eq_nil_iff_forall_not_mem]
      intro p hp
      obtain ⟨r, hr, hk⟩ := hfs.slot p hp
      exact nomatch (hnone r hr).symm.trans hk
    obtain ⟨rfl, rfl⟩ := hcore.eq_of_none hfs hnone
    rfl
  | relayed _ hd => exact nomatch (hnone _ mem_cons_self).symm.trans hd

end

theorem Block.ne_nil {block : List Instr} (h : Block loc slots U x block) : block ≠ [] := by
  cases h <;> simp

/-! ## More fetches -/

section

variable {fs' : Fetches} (hsub : fs ⊆ fs')

include hsub

theorem Carried.mono {r q : Reg} (h : Carried slots fs r q) : Carried slots fs' r q := by
  cases h with
  | kept h => exact .kept h
  | fetched h hq => exact .fetched h (hsub hq)

theorem CarriedBase.mono {b c : Option Reg} (h : CarriedBase slots fs b c) :
    CarriedBase slots fs' b c := by
  cases h with
  | none => exact .none
  | rip => exact .rip
  | reg hr hq h => exact .reg hr hq (h.mono hsub)

theorem CarriedIndex.mono {i j : Option (Reg × Int64)} (h : CarriedIndex slots fs i j) :
    CarriedIndex slots fs' i j := by
  cases h with
  | none => exact .none
  | reg h => exact .reg (h.mono hsub)

theorem CarriedMem.mono {m n : Mem} (h : CarriedMem slots fs m n) : CarriedMem slots fs' m n :=
  ⟨h.base.mono hsub, h.index.mono hsub, h.disp⟩

theorem ReadAs.mono {a b : Operand} (h : ReadAs loc slots fs a b) : ReadAs loc slots fs' a b := by
  cases h with
  | reg h => exact .reg (h.mono hsub)
  | slot h => exact .slot h
  | mem h => exact .mem (h.mono hsub)
  | const c => exact .const c
  | absent => exact .absent

theorem PlacedAs.mono {a b : Operand} (h : PlacedAs loc slots fs a b) :
    PlacedAs loc slots fs' a b := by
  cases h with
  | reg h => exact .reg h
  | slot h => exact .slot h
  | mem h => exact .mem (h.mono hsub)
  | const c => exact .const c
  | absent => exact .absent

end

theorem Fetching.append {V W : Reg → Prop} {rs rs' : List Reg} {fs' : Fetches}
    (h : Fetching slots U rs fs) (h' : Fetching slots V rs' fs') (hU : ∀ r, U r → W r ∧ ¬ V r)
    (hV : ∀ r, V r → W r) : Fetching slots W (rs ++ rs') (fs ++ fs') where
  scratch p hp := by
    grind [h.scratch, h'.scratch]
  slot p hp := by
    grind [h.slot, mem_append_left, h'.slot, mem_append_right]
  nodup := by
    rw [map_append, nodup_append]
    refine ⟨h.nodup, h'.nodup, fun q hq q' hq' heq => ?_⟩
    obtain ⟨p, hp, rfl⟩ := mem_map.mp hq
    obtain ⟨p', hp', rfl⟩ := mem_map.mp hq'
    exact (hU _ (h.scratch p hp)).2 (heq ▸ h'.scratch p' hp')

/-! ## Slots in the frame -/

/-- Slots below the frame pointer. -/
abbrev inFrame (k : Nat) : Operand := .mem (.slot k)

theorem placedAs_slot? (r : Reg) :
    PlacedAs inFrame slots fs (.reg r) ((Spilling.slot? slots r).elim (.reg r) .mem) := by
  cases h : Spilling.slot? slots r with
  | none => exact .reg (Spilling.slot?_eq_none.mp h)
  | some m =>
    obtain ⟨k, hk, rfl⟩ := Spilling.slot?_eq_some.mp h
    exact .slot hk

/-- What follows the instruction stores a register, if anything does. -/
theorem Core.store_cases {y : Instr} (h : Core loc slots U fs x y store) :
    store = [] ∨ ∃ k q, store = [.mov (loc k) (.reg q)] := by
  cases h with
  | movAbs h | movReg h _ | lea h _ | set h | imul3 h _ | arithReg h _ | imul h _ =>
    cases h with
    | kept h => exact .inl rfl
    | stored h hq => exact .inr ⟨_, _, rfl⟩
  | _ => exact .inl rfl

/-- What loads, stores and the instruction itself satisfy. -/
theorem Block.forall_mem {block : List Instr} {P : Instr → Prop} (h : Block loc slots U x block)
    (hmov : ∀ a b, P (.mov a b)) (harith : ∀ op a b, P (.arith op a b))
    (hcore : ∀ {fs y store}, Core loc slots U fs x y store → P y) : ∀ y ∈ block, P y := by
  have hfetch : ∀ {fs : Fetches}, ∀ z ∈ fs.code loc, P z := by
    intro fs z hz
    obtain ⟨p, _, rfl⟩ := mem_map.mp hz
    exact hmov _ _
  cases h with
  | around hfs h =>
    rw [forall_mem_append, forall_mem_cons]
    refine ⟨hfetch, hcore h, ?_⟩
    rcases h.store_cases with rfl | ⟨k, q, rfl⟩
    · exact fun _ => nofun
    · exact forall_mem_singleton.mpr (hmov _ _)
  | relayed =>
    rw [forall_mem_append, forall_mem_cons, forall_mem_singleton]
    exact ⟨hfetch, hmov _ _, harith _ _ _⟩

theorem words_le (a : Operand) : a.words.length ≤ 1 := by
  cases a <;> simp [Operand.words]

/-- Code with slots in the frame stands for an instruction, with two words of memory in one
instruction only where the instruction has two itself. -/
structure StandsFor (slots : Slots) (U : Reg → Prop) (x : Instr) (code : List Instr) : Prop where
  block : Block inFrame slots U x code
  words (h : x.words.length ≤ 1) : ∀ y ∈ code, y.words.length ≤ 1

theorem StandsFor.bare (hx : isBare x = true) : StandsFor slots U x [x] := by
  have hnil : Fetching slots U x.namedRegs [] := ⟨nofun, nofun, .nil⟩
  refine ⟨.around hnil (.bare hx), fun h y hy => ?_⟩
  rwa [mem_singleton.mp hy]

theorem Fetches.words_le (fs : Fetches) : ∀ z ∈ fs.code inFrame, z.words.length ≤ 1 := by
  intro z hz
  obtain ⟨p, _, rfl⟩ := mem_map.mp hz
  exact Nat.le_refl 1

theorem StandsFor.relayed {op : Arith} {q : Reg} {a b : Operand} {k : Nat}
    (hfs : Fetching slots U (Instr.arith op (.reg d) a).namedRegs fs) (hd : slots[d.name]? = some k)
    (hq : U q) (ha : ReadAs inFrame slots fs a b) (hb : ∀ c, b ≠ .const c) :
    StandsFor slots U (.arith op (.reg d) a)
      (fs.code inFrame ++ [.mov (.reg q) b, .arith op (.mem (.slot k)) (.reg q)]) := by
  refine ⟨.relayed hfs hd hq ha hb, fun _ => ?_⟩
  rw [forall_mem_append, forall_mem_cons, forall_mem_singleton]
  exact ⟨fs.words_le, Alloc.words_le b, Nat.le_refl 1⟩

/-- Code that fetches, and what holds behind it. -/
def Loads (slots : Slots) (U : Reg → Prop) (rs : List Reg) (load : List Instr)
    (P : Fetches → Prop) : Prop :=
  ∃ fs : Fetches, load = fs.code inFrame ∧ Fetching slots U rs fs ∧ P fs

namespace Loads

variable {V W : Reg → Prop} {rs rs' : List Reg} {load load' : List Instr} {P Q R : Fetches → Prop}

theorem nil (h : P []) : Loads slots U rs [] P := ⟨[], rfl, ⟨nofun, nofun, .nil⟩, h⟩

theorem single {q r : Reg} {k : Nat} (hq : U q) (hr : slots[r.name]? = some k)
    (h : P [(q, k)]) : Loads slots U [r] [.mov (.reg q) (.mem (.slot k))] P := by
  refine ⟨[(q, k)], rfl, ⟨?_, ?_, by simp⟩, h⟩
  · intro p hp
    rwa [mem_singleton.mp hp]
  · intro p hp
    rw [mem_singleton.mp hp]
    exact ⟨r, mem_cons_self, hr⟩

theorem append (h : Loads slots U rs load P) (h' : Loads slots V rs' load' Q)
    (hU : ∀ r, U r → W r ∧ ¬ V r) (hV : ∀ r, V r → W r)
    (hR : ∀ fs fs', P fs → Q fs' → R (fs ++ fs')) :
    Loads slots W (rs ++ rs') (load ++ load') R := by
  obtain ⟨fs, rfl, hfs, hP⟩ := h
  obtain ⟨fs', rfl, hfs', hQ⟩ := h'
  exact ⟨fs ++ fs', map_append.symm, hfs.append hfs' hU hV, hR fs fs' hP hQ⟩

theorem imp (h : Loads slots U rs load P) (hU : ∀ r, U r → V r) (hQ : ∀ fs, P fs → Q fs) :
    Loads slots V rs load Q := by
  obtain ⟨fs, rfl, hfs, hP⟩ := h
  exact ⟨fs, rfl, ⟨fun p hp => hU _ (hfs.scratch p hp), hfs.slot, hfs.nodup⟩, hQ fs hP⟩

theorem map (h : Loads slots U rs load P) (hQ : ∀ fs, P fs → Q fs) : Loads slots U rs load Q :=
  h.imp (fun _ h => h) hQ

theorem widen (h : Loads slots U rs load P) (hrs : rs ⊆ rs') : Loads slots U rs' load P := by
  obtain ⟨fs, rfl, hfs, hP⟩ := h
  refine ⟨fs, rfl, ⟨hfs.scratch, fun p hp => ?_, hfs.nodup⟩, hP⟩
  obtain ⟨r, hr, hk⟩ := hfs.slot p hp
  exact ⟨r, hrs hr, hk⟩

theorem standsFor {x y : Instr} {store : List Instr}
    (h : Loads slots U rs load fun fs => Core inFrame slots U fs x y store)
    (hrs : rs ⊆ x.namedRegs) (hone : x.words.length ≤ 1 → y.words.length ≤ 1) :
    StandsFor slots U x (load ++ y :: store) := by
  obtain ⟨fs, rfl, hfs, hcore⟩ := h.widen hrs
  refine ⟨.around hfs hcore, fun hx => ?_⟩
  rw [forall_mem_append, forall_mem_cons]
  refine ⟨fs.words_le, hone hx, ?_⟩
  rcases hcore.store_cases with rfl | ⟨k, q, rfl⟩
  · exact fun _ => nofun
  · exact forall_mem_singleton.mpr (Nat.le_refl 1)

end Loads

end

end X64Backend.Alloc
