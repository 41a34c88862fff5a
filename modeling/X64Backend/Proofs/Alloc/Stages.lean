import X64Backend.Proofs.Alloc.Allocation
import X64Backend.Proofs.Control

/-! # Code between the rounds of allocation

Code around which the callee-saved registers are kept consists of moves that save them, the
function's own instructions and moves that restore them. Spilling leaves it in that form: the
moves in front and behind stay single moves, and the instructions between them name registers
that have no slots, slots, and nothing else.
-/

namespace X64Backend.Asm

open List

variable {P P' : Reg → Prop} {slot slot' : Nat → Prop} {sym : Name → Prop}

theorem Mem.Plain.imp {m : Mem} (h : m.Plain P sym) (hP : ∀ r ∈ m.namedRegs, P r → P' r) :
    m.Plain P' sym :=
  ⟨h.1, h.2.imp_right fun h r hr => hP r (Alloc.mem_named_of_regs (a := .mem m) hr) (h r hr)⟩

theorem Operand.Fine.imp {a : Operand} (h : a.Fine P slot sym)
    (hP : ∀ r ∈ a.namedRegs, P r → P' r) (hslot : ∀ n, slot n → slot' n) : a.Fine P' slot' sym := by
  cases a with
  | reg r => exact hP r mem_cons_self h
  | const c => exact h
  | mem m =>
    rcases h with ⟨n, hn, rfl⟩ | h
    · exact .inl ⟨n, hslot n hn, rfl⟩
    · exact .inr (h.imp hP)
  | absent => trivial

/-- Of the registers that an instruction is over those matter that it names. -/
theorem Instr.Fine.imp {x : Instr} (h : x.Fine P slot sym) (hP : ∀ r ∈ x.namedRegs, P r → P' r)
    (hslot : ∀ n, slot n → slot' n) : x.Fine P' slot' sym := by
  have hpair : ∀ {a b : Operand}, a.Fine P slot sym ∧ b.Fine P slot sym →
      (∀ r ∈ a.namedRegs ++ b.namedRegs, P r → P' r) →
      a.Fine P' slot' sym ∧ b.Fine P' slot' sym := by
    intro a b h hP
    obtain ⟨ha, hb⟩ := forall_mem_append.mp hP
    exact ⟨h.1.imp ha hslot, h.2.imp hb hslot⟩
  cases x with
  | movAbs d v | set c d => exact hP d mem_cons_self h
  | mov d s | cmp l r => exact hpair h hP
  | lea d m =>
    obtain ⟨hd, hm⟩ := forall_mem_cons.mp hP
    exact ⟨hd h.1, h.2.imp hm⟩
  | jump c l | cqo | label l | comment text | absent => trivial
  | call a => exact h.imp_right fun h => h.imp hP hslot
  | ret | popRbp => exact h
  | arith op d s => exact h.imp_right fun h => hpair h hP
  | imul d s | imul3 d s k =>
    obtain ⟨hd, hs⟩ := forall_mem_cons.mp hP
    exact ⟨hd h.1, h.2.imp hs hslot⟩
  | idiv a | neg a | shl a k | push a => exact Operand.Fine.imp h hP hslot

end X64Backend.Asm

namespace X64Backend.Alloc

open Asm Dataflow List

variable {P : Reg → Prop} {slot : Nat → Prop} {sym : Name → Prop} {r : Reg} {q : MachineReg}

/-! ## Registers that an instruction is over -/

theorem fine_regs {a : Operand} (ha : a.Fine P slot sym) (hr : r ∈ a.regs) :
    P r ∨ ∃ q, r = .machine q := by
  cases a with
  | reg q =>
    obtain rfl := mem_singleton.mp hr
    exact .inl ha
  | const c | absent => cases hr
  | mem m =>
    rcases ha with ⟨n, _, rfl⟩ | ⟨_, ⟨hbase, hindex, _⟩ | hregs⟩
    · obtain rfl : r = .rbp := by
        simpa [Operand.regs, Mem.regs, Mem.slot, Mem.offset, Mem.baseOf] using hr
      exact .inr ⟨_, rfl⟩
    · obtain rfl : r = .rbp := by simpa [Operand.regs, Mem.regs, hbase, hindex] using hr
      exact .inr ⟨_, rfl⟩
    · exact .inl (hregs r hr)

/-- An instruction reads and writes registers of the kind it is over, and the machine's. -/
theorem reg_of_fine {x : Instr} (hx : x.Fine P slot sym) (hr : r ∈ uses x ∨ r ∈ defs x) :
    P r ∨ ∃ q, r = .machine q := by
  by_cases hm : ∃ q, r = .machine q
  · exact .inr hm
  left
  have hne : ∀ q, r ≠ .machine q := fun q hq => hm ⟨q, hq⟩
  have hregs : ∀ {a : Operand}, a.Fine P slot sym → r ∈ a.regs → P r := fun ha hr =>
    (fine_regs ha hr).resolve_right hm
  have hindirect : ∀ {a : Operand}, a.Fine P slot sym → r ∈ a.indirect → P r := fun ha hr =>
    hregs ha (Operand.mem_regs_of_indirect hr)
  have htarget : ∀ {a : Operand}, a.Fine P slot sym → r ∈ a.target → P r := fun ha hr =>
    hregs ha (Operand.mem_regs_of_target hr)
  have hplain : ∀ {m : Mem}, m.Plain P sym → r ∈ m.regs → P r := fun hm hr =>
    hregs (a := .mem _) (.inr hm) hr
  cases x with
  | call a =>
    simp only [uses_call, defs_call, mem_append, mem_map] at hr
    rcases hr with (hr | ⟨q, _, hq⟩) | ⟨q, _, hq⟩
    · rcases hx with ⟨n, rfl⟩ | ha
      · cases hr
      · exact hregs ha hr
    · exact absurd hq.symm (hne q)
    · exact absurd hq.symm (hne q)
  | arith op d a =>
    simp only [uses_arith, defs_arith, mem_append] at hr
    rcases hx with ⟨rfl, _, v, rfl⟩ | ⟨hd, ha⟩
    · grind [Operand.regs, Operand.imm, Operand.target, mem_singleton]
    · exact hr.elim (fun hr => hr.elim (hregs hd) (hregs ha)) (htarget hd)
  | ret | popRbp => exact hx.elim
  | cqo => simp [hne] at hr
  | jump c l | label l | comment text | absent => simp [uses, defs, accesses] at hr
  | _ =>
    simp only [uses_movAbs, defs_movAbs, uses_mov, defs_mov, uses_cmp, defs_cmp, uses_set,
      defs_set, uses_lea, defs_lea, uses_imul, defs_imul, uses_imul3, defs_imul3, uses_idiv,
      defs_idiv, uses_neg, defs_neg, uses_shl, defs_shl, uses_push, defs_push,
      mem_append, mem_cons, not_mem_nil, or_false, false_or, hne] at hr
    grind [Instr.Fine]

/-- An instruction writes registers of the kind it is over, the stack pointer and registers
that calls may change. -/
theorem def_of_fine {x : Instr} (hx : x.Fine P slot sym) (hr : r ∈ defs x) : P r ∨ r = .rsp ∨
      ∃ q ∈ MachineReg.callerSaved, r = .machine q := by
  have htarget : ∀ {a : Operand}, a.Fine P slot sym → r ∈ a.target → P r := by
    intro a ha hr
    cases a with
    | reg q =>
      obtain rfl := mem_singleton.mp hr
      exact ha
    | _ => cases hr
  cases x with
  | call a =>
    grind [defs_call]
  | arith op d a =>
    rw [defs_arith] at hr
    rcases hx with ⟨rfl, _⟩ | ⟨hd, _⟩
    · exact .inr (.inl (mem_singleton.mp hr))
    · exact .inl (htarget hd hr)
  | cqo =>
    rw [defs_cqo, mem_singleton] at hr
    exact .inr (.inr ⟨.rdx, by decide, hr⟩)
  | idiv a =>
    simp only [defs_idiv, mem_cons, not_mem_nil, or_false] at hr
    rcases hr with rfl | rfl
    · exact .inr (.inr ⟨.rax, by decide, rfl⟩)
    · exact .inr (.inr ⟨.rdx, by decide, rfl⟩)
  | push a => exact .inr (.inl (by simpa using hr))
  | mov d a => exact .inl (htarget hx.1 (by simpa using hr))
  | neg d | shl d k => exact .inl (htarget hx (by simpa using hr))
  | ret | popRbp => exact hx.elim
  | cmp a b | jump c l | label l | comment text => simp at hr
  | absent => cases hr
  | movAbs d v | set c d =>
    obtain rfl : r = d := by simpa using hr
    exact .inl hx
  | lea d m | imul d a | imul3 d a k =>
    obtain rfl : r = d := by simpa using hr
    exact .inl hx.1

/-! ## Forms that spilling keeps -/

/-- Registers and slots of some kind become registers and slots of another when some of the
registers get slots and others are there to go through. -/
structure Carries (new : Slots) (P : Reg → Prop) (slot : Nat → Prop) (P' : Reg → Prop)
    (slot' : Nat → Prop) (U : Reg → Prop) : Prop where
  machine (q : MachineReg) : new[(Reg.machine q).name]? = none
  rip : new[Reg.rip.name]? = none
  stays {r : Reg} (h : P r) (hnew : new[r.name]? = none) : P' r
  moves {r : Reg} {n : Nat} (h : P r) (hnew : new[r.name]? = some n) : slot' n
  keeps {n : Nat} (h : slot n) : slot' n
  spare {r : Reg} (h : U r) : P' r

theorem Carries.narrow {new : Slots} {P' U V : Reg → Prop} {slot' : Nat → Prop}
    (h : Carries new P slot P' slot' U) (hV : ∀ r, V r → U r) : Carries new P slot P' slot' V :=
  { h with spare := fun hr => h.spare (hV _ hr) }

section

variable {new : Slots} {P P' U : Reg → Prop} {slot slot' : Nat → Prop} {sym : Name → Prop}
  {rs : List Reg} {fs : Fetches} (hC : Carries new P slot P' slot' U)
  (hfs : Fetching new U rs fs)

include hC hfs

theorem Carried.fine {r q : Reg} (h : Carried new fs r q) (hr : P r) : P' q := by
  cases h with
  | kept h => exact hC.stays hr h
  | fetched h hq => exact hC.spare (hfs.scratch _ hq)

theorem CarriedMem.plain {m n : Mem} (h : CarriedMem new fs m n) (hm : m.Plain P sym) :
    n.Plain P' sym := by
  obtain ⟨base, index, disp⟩ := m
  obtain ⟨base', index', disp'⟩ := n
  obtain rfl : disp' = disp := h.disp
  refine ⟨hm.1, ?_⟩
  rcases hm.2 with ⟨hbase, hindex, hd⟩ | hregs
  · obtain rfl : base = some .rbp := hbase
    obtain rfl : index = none := hindex
    have hrbp : ∀ r ∈ Mem.namedRegs ⟨some .rbp, none, disp'⟩, new[r.name]? = none :=
      forall_mem_singleton.mpr (hC.machine .rbp)
    obtain ⟨rfl, rfl, _⟩ := Mem.mk.inj (h.eq_of_none hrbp)
    exact .inl ⟨rfl, rfl, hd⟩
  · refine .inr fun q hq => ?_
    rcases Shape.mem_regs_cases hq with hb | ⟨scale, hi⟩
    · obtain rfl : base' = some q := hb
      cases h.base with
      | rip =>
        cases h.index with
        | none => simp [Mem.regs] at hq
        | reg hc => exact (by simpa [Mem.regs] using hq) ▸ hc.fine hC hfs (hregs _ (by simp [Mem.regs]))
      | reg hr _ hc => exact hc.fine hC hfs (hregs _ (by simp [Mem.regs]))
    · obtain rfl : index' = some (q, scale) := hi
      cases h.index with
      | reg hc => exact hc.fine hC hfs (hregs _ (by simp [Mem.regs]))

theorem ReadAs.fine {a b : Operand} (h : ReadAs inFrame new fs a b) (ha : a.Fine P slot sym) :
    b.Fine P' slot' sym := by
  cases h with
  | reg h => exact h.fine hC hfs ha
  | slot h => exact .inl ⟨_, hC.moves ha h, rfl⟩
  | const c | absent => exact ha
  | mem h =>
    rcases ha with ⟨k, hk, rfl⟩ | hm
    · rw [h.eq_of_none (forall_mem_singleton.mpr (hC.machine .rbp))]
      exact .inl ⟨k, hC.keeps hk, rfl⟩
    · exact .inr (h.plain hC hfs hm)

omit hfs in
variable (slot sym) in
theorem WrittenAs.fine {d e : Reg} {store : List Instr} (h : WrittenAs inFrame new U d e store)
    (hd : P d) : P' e ∧ ∀ y ∈ store, y.Fine P' slot' sym := by
  cases h with
  | kept h => exact ⟨hC.stays hd h, fun _ hy => nomatch hy⟩
  | stored h hq =>
    refine ⟨hC.spare hq, forall_mem_singleton.mpr ⟨?_, hC.spare hq⟩⟩
    exact .inl ⟨_, hC.moves hd h, rfl⟩

theorem Core.fine {x y : Instr} {store : List Instr} (h : Core inFrame new U fs x y store)
    (hx : x.Fine P slot sym) : ∀ z ∈ y :: store, z.Fine P' slot' sym := by
  have hnil : ∀ z ∈ ([] : List Instr), z.Fine P' slot' sym := fun _ hz => nomatch hz
  have hwritten : ∀ {d e : Reg}, WrittenAs inFrame new U d e store → P d →
      P' e ∧ ∀ y ∈ store, y.Fine P' slot' sym := fun h hd => h.fine slot sym hC hd
  rw [forall_mem_cons]
  cases h with
  | movAbs h | set h => exact hwritten h hx
  | mov hd ha => exact ⟨⟨hd.readAs.fine hC hfs hx.1, ha.fine hC hfs hx.2⟩, hnil⟩
  | movReg h ha | imul3 h ha =>
    have hw := hwritten h hx.1
    exact ⟨⟨hw.1, ha.fine hC hfs hx.2⟩, hw.2⟩
  | lea h hm =>
    have hw := hwritten h hx.1
    exact ⟨⟨hw.1, hm.plain hC hfs hx.2⟩, hw.2⟩
  | cmp ha hc => exact ⟨⟨ha.fine hC hfs hx.1, hc.fine hC hfs hx.2⟩, hnil⟩
  | call ha =>
    rcases hx with ⟨n, rfl⟩ | hx
    · cases ha
      exact ⟨.inl ⟨n, rfl⟩, hnil⟩
    · exact ⟨.inr (ha.fine hC hfs hx), hnil⟩
  | arith hd ha =>
    rcases hx with ⟨rfl, hop, v, rfl⟩ | hx
    -- The stack pointer has no slot.
    · obtain rfl := hd.readAs.eq_of_none (forall_mem_singleton.mpr (hC.machine .rsp))
      cases ha
      exact ⟨.inl ⟨rfl, hop, v, rfl⟩, hnil⟩
    · exact ⟨.inr ⟨hd.readAs.fine hC hfs hx.1, ha.fine hC hfs hx.2⟩, hnil⟩
  | arithReg h ha =>
    have h := h.writtenAs hfs
    rcases hx with ⟨heq, hop, v, rfl⟩ | hx
    · cases heq
      obtain ⟨rfl, rfl⟩ := h.eq_of_none (hC.machine .rsp)
      cases ha
      exact ⟨.inl ⟨rfl, hop, v, rfl⟩, hnil⟩
    · have hw := hwritten h hx.1
      exact ⟨.inr ⟨hw.1, ha.fine hC hfs hx.2⟩, hw.2⟩
  | imul h ha =>
    have hw := hwritten (h.writtenAs hfs) hx.1
    exact ⟨⟨hw.1, ha.fine hC hfs hx.2⟩, hw.2⟩
  | idiv ha | push ha => exact ⟨ha.fine hC hfs hx, hnil⟩
  | neg hd | shl hd => exact ⟨hd.readAs.fine hC hfs hx, hnil⟩
  | bare hbare =>
    refine ⟨?_, hnil⟩
    cases x with
    | jump c l | cqo | label l | comment text | absent => trivial
    | ret | popRbp => exact hx.elim
    | _ => cases hbare

omit hfs in
/-- The code for an instruction is over the registers and slots that there are then. -/
theorem Block.fine {x : Instr} {block : List Instr} (h : Block inFrame new U x block)
    (hx : x.Fine P slot sym) : ∀ y ∈ block, y.Fine P' slot' sym := by
  have hfetches : ∀ {fs : Fetches}, Fetching new U x.namedRegs fs →
      ∀ y ∈ fs.code inFrame, y.Fine P' slot' sym := by
    intro fs hfs y hy
    obtain ⟨p, hp, rfl⟩ := mem_map.mp hy
    obtain ⟨r, hr, hk⟩ := hfs.slot p hp
    have hrip : r ≠ .rip := by
      rintro rfl
      exact nomatch hC.rip.symm.trans hk
    have hP : P r := by
      refine (reg_of_fine hx (Shape.mem_uses_or_defs_of_named hr hrip)).resolve_right ?_
      rintro ⟨q, rfl⟩
      exact nomatch (hC.machine q).symm.trans hk
    exact ⟨hC.spare (hfs.scratch p hp), .inl ⟨p.2, hC.moves hP hk, rfl⟩⟩
  cases h with
  | around hfs hcore => exact forall_mem_append.mpr ⟨hfetches hfs, hcore.fine hC hfs hx⟩
  | relayed hfs hd hq ha =>
    have hboth := hx.resolve_left fun h => by
      obtain ⟨heq, _⟩ := h
      cases heq
      exact nomatch (hC.machine .rsp).symm.trans hd
    rw [forall_mem_append, forall_mem_cons, forall_mem_singleton]
    refine ⟨hfetches hfs, ⟨hC.spare hq, ha.fine hC hfs hboth.2⟩, .inr ⟨?_, hC.spare hq⟩⟩
    exact .inl ⟨_, hC.moves hboth.1 hd, rfl⟩

end

/-! ## Moves around the code -/

/-- Where a callee-saved register is kept: in the slot of the register that keeps it, if that
has one. -/
def keeper (slots : Slots) (q : MachineReg) : Operand :=
  (Spilling.slot? slots (.saved (.machine q))).elim (.reg (.saved (.machine q))) .mem

theorem keeper_of_none {slots : Slots} (h : slots[(Reg.saved (.machine q)).name]? = none) :
    keeper slots q = .reg (.saved (.machine q)) := by
  rw [keeper, Spilling.slot?, h]
  rfl

theorem keeper_of_slot {slots : Slots} {k : Nat}
    (h : slots[(Reg.saved (.machine q)).name]? = some k) : keeper slots q = .mem (.slot k) := by
  rw [keeper, Spilling.slot?, h]
  rfl

/-- The moves that save the callee-saved registers. -/
def saves (slots : Slots) : List Instr :=
  MachineReg.calleeSaved.map fun q => .mov (keeper slots q) (.reg (.machine q))

/-- The moves that restore the callee-saved registers. -/
def restores (slots : Slots) : List Instr :=
  MachineReg.calleeSaved.map fun q => .mov (.reg (.machine q)) (keeper slots q)

/-- Code with the moves that keep the callee-saved registers around it. -/
def enclosed (slots : Slots) (mid : List Instr) : List Instr :=
  saves slots ++ mid ++ restores slots ++ [.comment "Dummy end of program."]

theorem enclosed_empty (code : List Instr) : enclosed ∅ code = keepCalleeSaved code := rfl

namespace Spilling

theorem code_append (slots : Slots) (xs ys : List Instr) :
    code slots (xs ++ ys) = do
      let a ← code slots xs
      let b ← code slots ys
      return a ++ b := by
  unfold code
  rw [mapM_append]
  simp only [bind_assoc, pure_bind, flatten_append]

/-- Code that is made of single instructions without issuing registers. -/
theorem code_map_pure {α : Type} {slots : Slots} {qs : List α} {f g : α → Instr}
    (h : ∀ q ∈ qs, instr slots (f q) = pure [g q]) : code slots (qs.map f) = pure (qs.map g) := by
  induction qs with
  | nil => rfl
  | cons q qs ih =>
    have hrest := ih fun p hp => h p (mem_cons_of_mem q hp)
    have hone : code slots [f q] = pure [g q] := by
      unfold code
      rw [mapM_cons, h q mem_cons_self]
      rfl
    rw [map_cons, ← singleton_append, code_append, hone, hrest]
    rfl

end Spilling

section

variable {slots slots' new : Slots} {rs : List Reg} {issued : Nat}

/-- Slots that were given out before stay. -/
theorem Extends.of_slot (hext : Extends slots rs slots' new)
    (hfree : ∀ r ∈ rs, slots[r.name]? = none) {n : Name} {k : Nat} (hn : slots[n]? = some k) :
    new[n]? = none ∧ slots'[n]? = some k := by
  grind [hext.new_iff, hext.of_old]

/-- A keeper that is a slot stays, and one that is a register goes where the register goes. -/
theorem keeper_cases (hext : Extends slots rs slots' new) (hfree : ∀ r ∈ rs, slots[r.name]? = none)
    (q : MachineReg) :
    (∃ n : Nat, keeper slots q = .mem (.slot n) ∧ keeper slots' q = .mem (.slot n)) ∨
    keeper slots q = .reg (.saved (.machine q)) ∧ keeper slots' q =
      (Spilling.slot? new (.saved (.machine q))).elim (.reg (.saved (.machine q))) .mem := by
  cases hn : slots[(Reg.saved (.machine q)).name]? with
  | some n =>
    exact .inl ⟨n, keeper_of_slot hn, keeper_of_slot (hext.of_slot hfree hn).2⟩
  | none =>
    grind [keeper_of_none, Reg.saved, keeper, Spilling.slot?, hext.of_old, hext.of_new]

/-- Moves that save and restore are spilled to such moves. -/
theorem code_saves (hext : Extends slots rs slots' new) (hrs : ∀ r ∈ rs, Spillable issued r)
    (hfree : ∀ r ∈ rs, slots[r.name]? = none) :
    Spilling.code new (saves slots) = pure (saves slots') ∧
      Spilling.code new (restores slots) = pure (restores slots') := by
  have hread : ∀ q : MachineReg, Spilling.slot? new (.machine q) = none := fun q =>
    Spilling.slot?_eq_none.mpr (hext.new_machine hrs q)
  have hframe : ∀ n : Nat, Spilling.address new (.slot n) = pure ([], .slot n) := fun n =>
    Spilling.address_frame (hext.new_machine hrs .rbp) rfl rfl
  constructor
  · apply Spilling.code_map_pure
    intro q _
    rcases keeper_cases hext hfree q with ⟨n, hold, hnew⟩ | ⟨hold, hnew⟩
    · rw [hold, hnew]
      simp only [Spilling.instr, hframe, Spilling.loaded, Spilling.readReg, hread]
      rfl
    · grind [Spilling.instr, Spilling.move, Spilling.inPlace, Spilling.slot?]
  · apply Spilling.code_map_pure
    intro q _
    rcases keeper_cases hext hfree q with ⟨n, hold, hnew⟩ | ⟨hold, hnew⟩
    · rw [hold, hnew]
      simp only [Spilling.instr, Spilling.move, Spilling.inPlace, hframe, hread]
      rfl
    · grind [Spilling.instr, Spilling.move, Spilling.inPlace, Spilling.slot?]

end

/-! ## Stages -/

/-- A register that code between rounds names: one to work on that has no slot and was issued
before, if it was issued. -/
structure Nameable (slots : Slots) (issued : Nat) (r : Reg) : Prop where
  workable : Workable r
  free : slots[r.name]? = none
  before : ∀ j, r = .issued j → j < issued

/-- A register that has nothing to do with keeping the callee-saved registers. -/
structure Own (r : Reg) : Prop where
  callee : ∀ q ∈ MachineReg.calleeSaved, r ≠ .machine q
  saved : ¬ SavedName r.name

/-- A function's own instructions between rounds, with the labels and jumps that they had at
first. -/
structure Stage (first : List Instr) (slots : Slots) (issued : Nat) (mid : List Instr) : Prop where
  fine {x : Instr} (hx : x ∈ mid) : x.Fine (fun r => Nameable slots issued r ∧ Own r)
    (fun k => ∃ n : Name, slots[n]? = some k ∧ ¬ SavedName n) (· ∉ labels first)
  dense : Dense slots
  spillable (n : Name) (k : Nat) (hn : slots[n]? = some k) :
    ∃ r : Reg, r.name = n ∧ Spillable issued r
  skeleton : skeleton mid = skeleton first

theorem skeleton_enclosed (slots : Slots) (mid : List Instr) :
    skeleton (enclosed slots mid) = skeleton mid := by
  have hsaves : skeleton (saves slots) = [] := by
    rw [skeleton_eq_nil]
    intro x hx
    obtain ⟨q, _, rfl⟩ := mem_map.mp hx
    rfl
  have hrestores : skeleton (restores slots) = [] := by
    rw [skeleton_eq_nil]
    intro x hx
    obtain ⟨q, _, rfl⟩ := mem_map.mp hx
    rfl
  rw [enclosed, skeleton_append, skeleton_append, skeleton_append, hsaves, hrestores]
  simp

theorem workable_calleeSaved (h : q ∈ MachineReg.calleeSaved) : Workable (.machine q) where
  proper := proper_machine q
  rip := nofun
  rsp := by
    rintro ⟨⟩
    revert h
    decide
  rbp := by
    rintro ⟨⟩
    revert h
    decide

section

variable {first mid : List Instr} {slots : Slots} {supply : Supply} {issued : Nat}

theorem Stage.labels_enclosed (h : Stage first slots issued mid) :
    labels (enclosed slots mid) = labels first :=
  labels_eq_of_skeleton ((skeleton_enclosed slots mid).trans h.skeleton)

theorem Stage.machine_free (h : Stage first slots issued mid) (q : MachineReg) :
    slots[(Reg.machine q).name]? = none := by
  cases hn : slots[(Reg.machine q).name]? with
  | none => rfl
  | some k =>
    obtain ⟨r, hname, hr, hne, _⟩ := h.spillable _ k hn
    exact absurd hname (hr.name_ne (proper_machine q) (hne q))

/-- The moves around the code are over what the code is over. -/
theorem Stage.enclosed_fine (h : Stage first slots issued mid) {x : Instr}
    (hx : x ∈ enclosed slots mid) : x.Fine (Nameable slots issued)
      (fun k => ∃ n : Name, slots[n]? = some k) (· ∉ labels first) := by
  have hcallee : ∀ q ∈ MachineReg.calleeSaved, Nameable slots issued (.machine q) := fun q hq =>
    ⟨workable_calleeSaved hq, h.machine_free q, fun _ => nofun⟩
  have hkeeper : ∀ q, (keeper slots q).Fine (Nameable slots issued)
      (fun k => ∃ n : Name, slots[n]? = some k) (· ∉ labels first) := by
    intro q
    cases hn : slots[(Reg.saved (.machine q)).name]? with
    | some n =>
      rw [keeper_of_slot hn]
      exact .inl ⟨n, ⟨_, hn⟩, rfl⟩
    | none =>
      rw [keeper_of_none hn]
      refine ⟨workable_saved q, hn, fun j hj => ?_⟩
      exact absurd ⟨q, congrArg Reg.name hj.symm⟩ (not_savedName_issued j)
  simp only [enclosed, saves, restores, mem_append, mem_map, mem_singleton] at hx
  rcases hx with ((⟨q, hq, rfl⟩ | hx) | ⟨q, hq, rfl⟩) | rfl
  · exact ⟨hkeeper q, hcallee q hq⟩
  · exact (h.fine hx).imp (fun _ _ hr => hr.1) fun _ ⟨n, hn, _⟩ => ⟨n, hn⟩
  · exact ⟨hcallee q hq, hkeeper q⟩
  · trivial

/-- What a round gives up can get slots, and has none yet. -/
theorem Stage.spilled (h : Stage first slots issued mid) {returns : Bool} {round : Round}
    (hround : Round.ofCode returns (enclosed slots mid) = .ok round) :
    (round.spilled.map Reg.name).Nodup ∧
      ∀ r ∈ round.spilled, Spillable issued r ∧ slots[r.name]? = none := by
  obtain ⟨live, hfinds⟩ := Round.ofCode_finds hround
  obtain ⟨hnodup, hspilled⟩ := hfinds.spilled_spec
  refine ⟨hnodup, fun r hr => ?_⟩
  obtain ⟨hmachine, x, hx, hnamed⟩ := hspilled r hr
  rcases reg_of_fine (h.enclosed_fine hx) hnamed with hreg | ⟨q, rfl⟩
  · exact ⟨⟨hreg.workable, hmachine, hreg.before⟩, hreg.free⟩
  · exact absurd rfl (hmachine q)

/-- What code between rounds is over becomes what it is over after the next round. -/
theorem Stage.carries (h : Stage first slots supply.issued mid) {rs : List Reg}
    {slots' new : Slots} (hext : Extends slots rs slots' new)
    (hrs : ∀ r ∈ rs, Spillable supply.issued r ∧ slots[r.name]? = none) {supply' : Supply}
    (hle : supply.issued ≤ supply'.issued) {O : Reg → Prop} {N : Name → Prop}
    (hN : ∀ r, O r → N r.name) (hO : ∀ j, O (.issued j)) :
    Carries new (fun r => Nameable slots supply.issued r ∧ O r)
      (fun k => ∃ n : Name, slots[n]? = some k ∧ N n)
      (fun r => Nameable slots' supply'.issued r ∧ O r)
      (fun k => ∃ n : Name, slots'[n]? = some k ∧ N n) (Issued supply supply') := by
  have hspill : ∀ r ∈ rs, Spillable supply.issued r := fun r hr => (hrs r hr).1
  refine ⟨hext.new_machine hspill, hext.new_iff.mpr ?_, ?_, ?_, ?_, ?_⟩
  · exact fun r hr => (hspill r hr).1.name_ne proper_rip (hspill r hr).1.rip
  · rintro r ⟨hr, hown⟩ hnew
    refine ⟨⟨hr.workable, ?_, fun j hj => Nat.lt_of_lt_of_le (hr.before j hj) hle⟩, hown⟩
    rw [hext.of_old hnew, hr.free]
  · rintro r n ⟨_, hown⟩ hnew
    exact ⟨r.name, hext.of_new hnew, hN r hown⟩
  · rintro k ⟨n, hn, hname⟩
    exact ⟨n, (hext.of_slot (fun r hr => (hrs r hr).2) hn).2, hname⟩
  · rintro _ ⟨j, hlo, hhi, rfl⟩
    refine ⟨⟨workable_issued j, hext.issued_free hspill h.spillable hlo, ?_⟩, hO j⟩
    intro i hi
    rwa [← Reg.issued_inj.mp hi]

/-- Spilling leads from one stage to the next. -/
theorem Stage.spill (h : Stage first slots supply.issued mid) {rs : List Reg}
    (hnodup : (rs.map Reg.name).Nodup)
    (hrs : ∀ r ∈ rs, Spillable supply.issued r ∧ slots[r.name]? = none) {code' : List Instr}
    {supply' : Supply} (hcode : (Spilling.code (addSlots slots rs).2 (enclosed slots mid)).run
      supply = .ok (code', supply')) :
    ∃ mid', code' = enclosed (addSlots slots rs).1 mid' ∧
      Stage first (addSlots slots rs).1 supply'.issued mid' := by
  have hext := addSlots_extends h.dense hnodup fun r hr => (hrs r hr).2
  generalize (addSlots slots rs).1 = slots' at hext
  generalize (addSlots slots rs).2 = new at hext hcode
  have hspill : ∀ r ∈ rs, Spillable supply.issued r := fun r hr => (hrs r hr).1
  obtain ⟨hsaves, hrestores⟩ := code_saves hext hspill fun r hr => (hrs r hr).2
  have hlast : Spilling.code new [.comment "Dummy end of program."] =
      pure [.comment "Dummy end of program."] := rfl
  rw [enclosed, Spilling.code_append, Spilling.code_append, Spilling.code_append, hsaves,
    hrestores, hlast] at hcode
  simp only [pure_bind, bind_assoc] at hcode
  rw [StateT.run_bind] at hcode
  obtain ⟨⟨mid', supply₁⟩, hmid, hcode⟩ := bind_eq_ok.mp hcode
  cases hcode
  refine ⟨mid', rfl, ?_⟩
  have hskeleton := Spilling.skeleton_code hmid
  obtain ⟨blocks, rfl, hle, hblocks⟩ := Spilling.exists_blocks hmid
  refine ⟨?_, hext.dense, hext.spillable hspill h.spillable hle, hskeleton.trans h.skeleton⟩
  have hcarries := h.carries hext hrs hle (O := Own) (N := (¬ SavedName ·)) (fun _ hr => hr.saved)
    fun j => ⟨fun q _ => nofun, not_savedName_issued j⟩
  intro y hy
  obtain ⟨block, hblock, hy⟩ := mem_flatten.mp hy
  obtain ⟨x, hx, begun, ended, hbegun, hended, hstands⟩ := exists_mem_of_forall₂ hblocks hblock
  exact hstands.block.fine (hcarries.narrow fun _ hr => hr.mono hbegun hended) (h.fine hx) y hy

end

end X64Backend.Alloc
