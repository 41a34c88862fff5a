import X64Backend.Proofs.Alloc.Rewriting
import X64Backend.Proofs.Dataflow.Uses
import X64Backend.Proofs.Shape

/-! # The shape of allocated code

Keeping registers in slots leaves the shape of code: what is spilled is named no more, the
frame has slots, and registers were issued on the way.
-/

namespace X64Backend.Asm.Shape

open Dataflow Alloc List

variable {S : Shape} {d s : Operand}

/-! ## Registers that code reads and writes -/

section

variable {S : Shape} {p : Reg → Prop}
variable {m : Mem} {r : Reg} {a : Operand} {x : Instr}

theorem mem_regs_cases (h : r ∈ m.regs) : m.base = some r ∨ ∃ s, m.index = some (r, s) := by
  unfold Mem.regs at h
  rcases mem_append.mp h with h | h
  · split at h
    next => cases h
    next => cases h
    next hbase => exact .inl (mem_singleton.mp h ▸ hbase)
  · split at h
    next => cases h
    next s hindex => exact .inr ⟨s, mem_singleton.mp h ▸ hindex⟩

theorem mem_regs_of_named (h : r ∈ a.namedRegs) (hrip : r ≠ .rip) : r ∈ a.regs := by
  cases a with
  | reg q => exact h
  | const c | absent => cases h
  | mem m =>
    rcases mem_append.mp h with h | h
    · have hbase := Option.mem_toList.mp h
      refine mem_append_left _ ?_
      rw [hbase]
      cases r with
      | rip => exact absurd rfl hrip
      | machine q | abstract n => exact mem_cons_self
    · obtain ⟨⟨q, s⟩, hindex, rfl⟩ := Option.map_eq_some_iff.mp (Option.mem_toList.mp h)
      refine mem_append_right _ ?_
      rw [hindex]
      exact mem_cons_self

/-- A register that an instruction names is read or written, but for the instruction
pointer. -/
theorem mem_uses_or_defs_of_named (h : r ∈ x.namedRegs) (hrip : r ≠ .rip) :
    r ∈ uses x ∨ r ∈ defs x := by
  have hoperand : ∀ {a : Operand}, r ∈ a.namedRegs → r ∈ a.regs := fun h =>
    mem_regs_of_named h hrip
  have hmem : ∀ {m : Mem}, r ∈ m.namedRegs → r ∈ m.regs := fun h =>
    mem_regs_of_named (a := .mem _) h hrip
  have hwritten : ∀ {a : Operand}, r ∈ a.regs → r ∈ a.indirect ∨ r ∈ a.target := by
    intro a ha
    cases a <;> simp_all [Operand.regs, Operand.indirect, Operand.target]
  cases x with
  | movAbs d v | set c d => exact .inr h
  | jump c l | ret | cqo | popRbp | label l | comment text | absent => cases h
  | _ =>
    simp only [Instr.namedRegs, uses_mov, defs_mov, uses_lea, defs_lea, uses_cmp, uses_call,
      uses_arith, uses_imul, uses_imul3, defs_imul3, uses_idiv, uses_neg, uses_shl, uses_push,
      mem_append, mem_cons] at h ⊢
    grind

/-- The registers that operands of a shape may name. -/
def Names (S : Shape) (r : Reg) : Prop := S.reg r ∨ (∃ d, S.frame d) ∧ r = .rbp

theorem Word.names_of_mem (h : S.Word m) (hr : r ∈ m.regs) : S.Names r := by
  cases h with
  | symbol h => cases hr
  | frame h => exact .inr ⟨⟨_, h⟩, mem_singleton.mp hr⟩
  | sum hbase hindex hd =>
    rcases mem_regs_cases hr with hr | ⟨s, hr⟩
    · exact .inl (hbase r hr)
    · exact .inl (hindex r s hr).1

theorem Source.names_of_mem (h : S.Source a) (hr : r ∈ a.regs) : S.Names r := by
  cases h with
  | value h =>
    cases h with
    | imm h => cases hr
    | reg h => exact .inl (mem_singleton.mp hr ▸ h)
  | mem h => exact h.names_of_mem hr

theorem Place.names_of_mem (h : S.Place a) (hr : r ∈ a.regs) : S.Names r :=
  h.source.names_of_mem hr

theorem Pair.names_of_mem {d s : Operand} (h : S.Pair d s) (hr : r ∈ d.regs ++ s.regs) :
    S.Names r :=
  (mem_append.mp hr).elim h.place.names_of_mem h.source.names_of_mem

/-- What an instruction other than a call reads and writes are registers of its shape, or those
that it works on without naming them. -/
theorem Allows.names_of_mem (h : S.Allows x) (hcall : ∀ a, x ≠ .call a)
    (hr : r ∈ uses x ∨ r ∈ defs x) : S.Names r ∨ r = .rax ∨ r = .rdx ∨ r = .rsp := by
  have hindirect : ∀ {a : Operand}, r ∈ a.indirect → r ∈ a.regs := Operand.mem_regs_of_indirect
  have htarget : ∀ {a : Operand}, r ∈ a.target → r ∈ a.regs := Operand.mem_regs_of_target
  cases h with
  | callSymbol _ | call h => exact absurd rfl (hcall _)
  | stack hop hv =>
    exact .inr (.inr (.inr (by simpa [Operand.regs, Operand.target, Operand.imm] using hr)))
  | jump l hc | label l | comment text => simp [uses, accesses] at hr
  | _ =>
    simp at hr
    grind [Pair.names_of_mem, Word.names_of_mem, Place.names_of_mem, Source.names_of_mem, Names]

/-- What an instruction reads and writes are registers of its shape or the machine's. -/
theorem Allows.reg_of_mem (h : S.Allows x) (hr : r ∈ uses x ∨ r ∈ defs x) :
    S.reg r ∨ ∃ q, r = .machine q := by
  have hnames : S.Names r → S.reg r ∨ ∃ q, r = .machine q := fun h =>
    h.imp_right fun h => ⟨_, h.2⟩
  by_cases hcall : ∃ a, x = .call a
  · obtain ⟨a, rfl⟩ := hcall
    rw [uses_call, defs_call, mem_append, or_assoc] at hr
    rcases hr with hr | hr
    · cases h with
      | callSymbol _ => cases hr
      | call h => exact hnames (h.names_of_mem hr)
    · rw [← mem_append, ← map_append] at hr
      obtain ⟨q, _, rfl⟩ := mem_map.mp hr
      exact .inr ⟨q, rfl⟩
  · rcases h.names_of_mem (fun a ha => hcall ⟨a, ha⟩) hr with hr | rfl | rfl | rfl
    · exact hnames hr
    all_goals exact .inr ⟨_, rfl⟩

/-! ## Code over machine registers -/

/-- An instruction names registers of its shape, the machine's, or the instruction pointer. -/
theorem Allows.reg_of_named (h : S.Allows x) (hr : r ∈ x.namedRegs) :
    S.reg r ∨ (∃ q, r = .machine q) ∨ r = .rip := by
  by_cases hrip : r = .rip
  · exact .inr (.inr hrip)
  · exact (h.reg_of_mem (mem_uses_or_defs_of_named hr hrip)).imp_right .inl

theorem Allows.checkRegisters (h : S.Allows x) (hS : ∀ r, S.reg r → r.isMachine = true) :
    x.checkRegisters = .ok () := by
  have hnone : x.namedRegs.find? (fun r => !r.isMachine && r != .rip) = none := by
    rw [find?_eq_none]
    intro r hr hbad
    simp only [Bool.and_eq_true, Bool.not_eq_true', bne_iff_ne] at hbad
    rcases h.reg_of_named hr with hr | ⟨q, rfl⟩ | rfl
    · rw [hS r hr] at hbad
      cases hbad.1
    · cases hbad.1
    · exact hbad.2 rfl
  unfold Instr.checkRegisters
  rw [hnone]

end

/-! ## Words of memory -/

theorem Place.pair (hd : S.Place d) (hs : S.Value s) : S.Pair d s := by
  cases hd with
  | reg hr => exact .reg hr (.value hs)
  | mem hm => exact .mem hm hs

theorem Place.pair_of_words (hd : S.Place d) (hs : S.Source s)
    (hone : (d.words ++ s.words).length ≤ 1) : S.Pair d s := by
  cases hs with
  | value hs => exact hd.pair hs
  | mem hs =>
    cases hd with
    | reg hr => exact .reg hr (.mem hs)
    | mem _ => exact absurd hone (by simp [Operand.words])

theorem Pair.words_le (h : S.Pair d s) : (d.words ++ s.words).length ≤ 1 := by
  cases h with
  | reg _ hs => exact Alloc.words_le s
  | mem _ hs => cases hs <;> exact Nat.le_refl 1

/-- An instruction of a shape has one word of memory at most. -/
theorem Allows.words_le {x : Instr} (h : S.Allows x) : x.words.length ≤ 1 := by
  cases h with
  | mov h | cmp h | arith _ h => exact h.words_le
  | call _ | imul _ _ | imul3 _ _ _ | idiv _ | neg _ | shl _ _ | push _ => exact Alloc.words_le _
  | _ => exact Nat.zero_le 1

theorem Allows.hasTarget {x : Instr} (h : S.Allows x) : Spilling.hasTarget x = true := by
  cases h with
  | mov h | arith _ h => cases h <;> rfl
  | _ => rfl

/-- The shape without registers that have slots, and with the slots. -/
def spilling (S : Shape) (slots : Slots) : Shape :=
  { S with
    reg := fun r => S.reg r ∧ slots[r.name]? = none
    frame := fun d => S.frame d ∨
      ∃ (r : Reg) (k : Nat), S.reg r ∧ slots[r.name]? = some k ∧ d = -8 * Int64.ofInt k }

end X64Backend.Asm.Shape

namespace X64Backend.Alloc

open Asm List

variable {S : Shape} {slots : Slots} {x : Instr}

theorem mem_named_of_regs {a : Operand} {r : Reg} (h : r ∈ a.regs) : r ∈ a.namedRegs := by
  cases a with
  | mem m =>
    rcases Shape.mem_regs_cases h with hbase | ⟨s, hindex⟩
    · exact mem_append_left _ (by simp [hbase])
    · exact mem_append_right _ (by simp [hindex])
  | _ => exact h

/-- Neither the instruction pointer nor registers of the machine are up for slots. -/
structure KeepsPointers (S : Shape) (slots : Slots) : Prop where
  rip : ¬ S.reg .rip
  freeRip : slots[Reg.rip.name]? = none
  free : ∀ q, slots[(Reg.machine q).name]? = none

/-- The shape of spilled code, with registers issued from one number up to another. -/
abbrev spilledTo (S : Shape) (slots : Slots) (first k : Nat) : Shape :=
  (S.spilling slots).issuing fun j => first ≤ j ∧ j < k

section

variable {S S' : Shape} {slots : Slots} {U : Reg → Prop} {fs : Fetches} {x : Instr}
  {block : List Instr}
  (hS : KeepsPointers S slots) (hle : (S.spilling slots).Le S') (hU : ∀ r, U r → S'.reg r)

include hle in
theorem allows_slot {r : Reg} {k : Nat} (hr : S.reg r) (hk : slots[r.name]? = some k) :
    S'.Word (.slot k) := .frame (hle.frame (.inr ⟨r, k, hr, hk, rfl⟩))

include hle hU in
theorem WrittenAs.shape {d e : Reg} {store : List Instr} (h : WrittenAs inFrame slots U d e store)
    (hd : S.reg d) : S'.reg e ∧ S'.Code store := by
  cases h with
  | kept h => exact ⟨hle.reg ⟨hd, h⟩, Shape.code_nil⟩
  | stored h hq =>
    refine ⟨hU _ hq, Shape.code_cons.mpr ⟨.mov (.mem (allows_slot hle hd h) (.reg (hU _ hq))), ?_⟩⟩
    exact Shape.code_nil

section

variable (hfs : ∀ p ∈ fs, U p.1)

include hle hU hfs

theorem Carried.shape {r q : Reg} (h : Carried slots fs r q) (hr : S.reg r) : S'.reg q := by
  cases h with
  | kept h => exact hle.reg ⟨hr, h⟩
  | fetched h hq => exact hU _ (hfs _ hq)

include hS

theorem CarriedMem.shape {m n : Mem} (h : CarriedMem slots fs m n) (hm : S.Word m) :
    S'.Word n := by
  obtain ⟨base, index, disp⟩ := n
  obtain ⟨hb, hi, hd⟩ := h
  cases hm with
  | symbol hc =>
    cases hi
    cases hd
    cases hb with
    | rip => exact .symbol (hle.symbol hc)
    | reg hr => exact absurd rfl hr
  | frame hd' =>
    cases hi
    cases hd
    cases hb with
    | reg _ _ hcarried =>
      rw [hcarried.eq_of_none (hS.free .rbp)]
      exact .frame (hle.frame (.inl hd'))
  | @sum base' index' d hbase hindex hd' =>
    cases hd
    refine .sum (fun r hr => ?_) (fun r s hrs => ?_) hd'
    · subst hr
      cases hb with
      | rip => exact absurd (hbase _ rfl) hS.rip
      | reg _ _ h => exact h.shape hle hU hfs (hbase _ rfl)
    · subst hrs
      cases hi with
      | reg h =>
        obtain ⟨hr, hs⟩ := hindex _ _ rfl
        exact ⟨h.shape hle hU hfs hr, hs⟩

theorem ReadAs.place {a b : Operand} (h : ReadAs inFrame slots fs a b) (ha : S.Place a) :
    S'.Place b := by
  cases ha with
  | reg hr =>
    cases h with
    | reg h => exact .reg (h.shape hle hU hfs hr)
    | slot h => exact .mem (allows_slot hle hr h)
  | mem hm =>
    cases h with
    | mem h => exact .mem (h.shape hS hle hU hfs hm)

theorem ReadAs.source {a b : Operand} (h : ReadAs inFrame slots fs a b) (ha : S.Source a) :
    S'.Source b := by
  cases ha with
  | value ha =>
    cases ha with
    | imm hv =>
      cases h with
      | const => exact .value (.imm hv)
    | reg hr => exact (h.place hS hle hU hfs (.reg hr)).source
  | mem hm => exact (h.place hS hle hU hfs (.mem hm)).source

end

include hS hle hU

/-- What stands for an instruction of a shape has the shape that spilling leaves. -/
theorem StandsFor.shape (h : StandsFor slots U x block) (hx : S.Allows x) : S'.Code block := by
  obtain ⟨hblock, hwords⟩ := h
  have hfetch : ∀ {fs : Fetches}, Fetching slots U x.namedRegs fs → S'.Code (fs.code inFrame) := by
    intro fs hfs z hz
    obtain ⟨p, hp, rfl⟩ := mem_map.mp hz
    obtain ⟨r, hr, hk⟩ := hfs.slot p hp
    rcases hx.reg_of_named hr with hr | ⟨q, rfl⟩ | rfl
    · exact .mov (.reg (hU _ (hfs.scratch p hp)) (.mem (allows_slot hle hr hk)))
    -- The registers of the machine have no slots.
    · exact nomatch (hS.free q).symm.trans hk
    · exact nomatch hS.freeRip.symm.trans hk
  cases hblock with
  | @around fs _ y store hfs hcore =>
    refine Shape.code_append.mpr ⟨hfetch hfs, ?_⟩
    have hone : y.words.length ≤ 1 := hwords hx.words_le y (mem_append_right _ mem_cons_self)
    -- Operands that are read or written, once for all forms.
    have hread : ∀ {a b}, ReadAs inFrame slots fs a b → S.Source a → S'.Source b := fun h ha =>
      h.source hS hle hU hfs.scratch ha
    have hplace : ∀ {a b}, ReadAs inFrame slots fs a b → S.Place a → S'.Place b := fun h ha =>
      h.place hS hle hU hfs.scratch ha
    have hpair : ∀ {d e a b}, ReadAs inFrame slots fs d e → ReadAs inFrame slots fs a b →
        S.Pair d a → (e.words ++ b.words).length ≤ 1 → S'.Pair e b := fun hd ha h hone =>
      (hplace hd h.place).pair_of_words (hread ha h.source) hone
    have hwritten : ∀ {d e}, WrittenAs inFrame slots U d e store → S.reg d →
        (S'.reg e → S'.Allows y) → S'.Code (y :: store) := by
      intro d e h hd hy
      obtain ⟨he, hstore⟩ := h.shape hle hU hd
      exact Shape.code_cons.mpr ⟨hy he, hstore⟩
    have hsingle : S'.Allows y → store = [] → S'.Code (y :: store) := by
      rintro hy rfl
      exact Shape.code_cons.mpr ⟨hy, Shape.code_nil⟩
    cases hcore with
    | movAbs h =>
      cases hx with
      | movAbs _ hd => exact hwritten h hd (.movAbs _)
    | mov hd ha =>
      cases hx with
      | mov h => exact hsingle (.mov (hpair hd.readAs ha h hone)) rfl
    | movReg h ha =>
      cases hx with
      | mov hp =>
        cases hp with
        | reg hr hs => exact hwritten h hr fun he => .mov (.reg he (hread ha hs))
    | lea h hm =>
      cases hx with
      | lea hd hm' =>
        exact hwritten h hd fun he => .lea he (hm.shape hS hle hU hfs.scratch hm')
    | cmp ha hc =>
      cases hx with
      | cmp h => exact hsingle (.cmp (hpair ha hc h hone)) rfl
    | set h =>
      cases hx with
      | set hc =>
        obtain ⟨rfl, rfl⟩ := h.eq_of_none (hS.free .rax)
        exact hsingle (.set hc) rfl
    | call ha =>
      cases hx with
      | callSymbol hn =>
        cases ha
        exact hsingle (.callSymbol (hle.symbol hn)) rfl
      | call h => exact hsingle (.call (hread ha h)) rfl
    | arith hd ha =>
      cases hx with
      | stack hop hv =>
        cases ha
        cases hd with
        | reg => exact hsingle (.stack hop (hle.stack hv)) rfl
        | slot h => exact nomatch (hS.free .rsp).symm.trans h
      | arith hop h => exact hsingle (.arith hop (hpair hd.readAs ha h hone)) rfl
    | arithReg h ha =>
      cases hx with
      | stack hop hv =>
        cases ha
        obtain ⟨rfl, rfl⟩ := (h.writtenAs hfs).eq_of_none (hS.free .rsp)
        exact hsingle (.stack hop (hle.stack hv)) rfl
      | arith hop hp =>
        cases hp with
        | reg hr hs =>
          exact hwritten (h.writtenAs hfs) hr fun he => .arith hop (.reg he (hread ha hs))
    | imul h ha =>
      cases hx with
      | imul hd hs => exact hwritten (h.writtenAs hfs) hd fun he => .imul he (hplace ha hs)
    | imul3 h ha =>
      cases hx with
      | imul3 hd hs hk => exact hwritten h hd fun he => .imul3 he (hplace ha hs) hk
    | idiv ha =>
      cases hx with
      | idiv h => exact hsingle (.idiv (hplace ha h)) rfl
    | neg hd =>
      cases hx with
      | neg h => exact hsingle (.neg (hplace hd.readAs h)) rfl
    | shl hd =>
      cases hx with
      | shl h hk => exact hsingle (.shl (hplace hd.readAs h) hk) rfl
    | push ha =>
      cases hx with
      | push h => exact hsingle (.push (hread ha h)) rfl
    | bare hbare =>
      refine hsingle ?_ rfl
      cases hx with
      | jump l hc => exact .jump l hc
      | cqo => exact .cqo
      | label l => exact .label l
      | comment text => exact .comment text
      | _ => cases hbare
  | @relayed fs op d q a b k hfs hd hq ha _ =>
    -- The operand is loaded, so the slot is the only word of memory.
    cases hx with
    | stack => exact nomatch (hS.free .rsp).symm.trans hd
    | arith hop hp =>
      cases hp with
      | reg hr hs =>
        have hload : S'.Allows (.mov (.reg q) b) :=
          .mov (.reg (hU _ hq) (ha.source hS hle hU hfs.scratch hs))
        have hwork : S'.Allows (.arith op (.mem (.slot k)) (.reg q)) :=
          .arith hop (.mem (allows_slot hle hr hd) (.reg (hU _ hq)))
        exact Shape.code_append.mpr ⟨hfetch hfs, Shape.code_cons.mpr ⟨hload,
          Shape.code_cons.mpr ⟨hwork, Shape.code_nil⟩⟩⟩

end

/-- Spilling goes through, and what it leaves stands for the instruction. -/
theorem Spilling.instr_standsFor_of_allows (supply : Supply) (hS : KeepsPointers S slots)
    (hx : S.Allows x) :
    Yields supply (instr slots x) fun supply' out => StandsFor slots (Issued supply supply') x out := by
  refine instr_standsFor hx.hasTarget ?_
  rintro c d rfl
  cases hx with
  | set hc => exact hS.free .rax

theorem StandsFor.shape_spilledTo {block : List Instr} {begun ended : Supply} {first : Nat}
    (hS : KeepsPointers S slots) (hx : S.Allows x) (hfirst : first ≤ begun.issued)
    (h : StandsFor slots (Issued begun ended) x block) :
    (spilledTo S slots first ended.issued).Code block := by
  refine h.shape hS (Shape.le_issuing _ _) ?_ hx
  rintro _ ⟨j, hj, hlt, rfl⟩
  exact .inr ⟨j, ⟨Nat.le_trans hfirst hj, hlt⟩, rfl⟩

/-- Registers that code on the stack goes through have no slots. -/
structure Stack.Scratch (S : Shape) (slots : Slots) : Prop extends KeepsPointers S slots where
  through {r : Reg} (h : Through r) : (S.spilling slots).reg r

theorem Stack.instr_shape (hS : Scratch S slots) (hx : S.Allows x) :
    ∃ code, instr slots x = .ok code ∧ (S.spilling slots).Code code := by
  have hblock : ∃ code, instr slots x = .ok code ∧ StandsFor slots Through x code :=
    instr_standsFor (.inr (.inl rfl)) (.inr (.inr rfl)) (fun _ => .inl rfl) hx.hasTarget hx.words_le
  obtain ⟨code, hcode, hstands⟩ := hblock
  exact ⟨code, hcode, hstands.shape hS.toKeepsPointers ⟨id, id, id, id⟩ (fun _ => hS.through) hx⟩

end X64Backend.Alloc
