import X64Backend.Proofs.Alloc.Allocation
import X64Backend.Proofs.Alloc.Recoloring
import X64Backend.Proofs.Dataflow.Exactness

/-! # Proper colourings

A colouring gives machine registers to names. It is proper if no two registers that
interfere become the same. Then the registers that are live can be tracked under their
colours: an instruction that writes a register overwrites none that is live behind it, but
for the one it copies.
-/

namespace X64Backend.Alloc

open Asm Dataflow List

variable {a : Operand} {r : Reg} {x : Instr}

/-! ## Registers that code names -/

theorem mem_named_of_indirect (h : r ∈ a.indirect) : r ∈ a.namedRegs := by
  cases a with
  | mem m => exact mem_named_of_regs (a := .mem m) h
  | _ => cases h

theorem mem_named_of_target (h : r ∈ a.target) : r ∈ a.namedRegs := by
  cases a with
  | reg q => exact h
  | _ => cases h

/-- The registers that instructions other than calls work on without naming them. -/
theorem named_or_implicit_of_mem (hx : Machine.isCall x = false) (h : r ∈ uses x ∨ r ∈ defs x) :
    r ∈ x.namedRegs ∨ r = .rax ∨ r = .rdx ∨ r = .rsp ∨ r = .rbp := by
  cases x with
  | call a => cases hx
  | lea d m =>
    have hm := @mem_named_of_regs (.mem m)
    simp only [Operand.regs, Operand.namedRegs] at hm
    rw [uses_lea, defs_lea, mem_singleton] at h
    exact .inl (mem_cons.mpr (h.symm.imp_right hm))
  | ret | jump c l | label l | comment text | absent => simp [uses, defs, accesses] at h
  | popRbp =>
    simp [uses, defs, accesses, Access.used?, Access.defined?, updates] at h
    grind
  | _ =>
    simp only [uses_movAbs, defs_movAbs, uses_mov, defs_mov, uses_cmp, defs_cmp, uses_set,
      defs_set, uses_arith, defs_arith, uses_imul, defs_imul, uses_imul3, defs_imul3, uses_idiv,
      defs_idiv, uses_neg, defs_neg, uses_shl, defs_shl, uses_push, defs_push, uses_cqo,
      defs_cqo, mem_append, mem_cons, not_mem_nil, or_false, false_or,
      Instr.namedRegs] at h ⊢
    grind [mem_named_of_regs, mem_named_of_indirect, mem_named_of_target]

/-- An instruction reads and writes no registers but those it names and some of the
machine. -/
theorem named_or_machine_of_mem (h : r ∈ uses x ∨ r ∈ defs x) :
    r ∈ x.namedRegs ∨ ∃ q, r = .machine q := by
  cases x with
  | call a =>
    simp only [uses_call, defs_call, mem_append, mem_map, Instr.namedRegs] at h ⊢
    grind [mem_named_of_regs, mem_named_of_indirect]
  | _ =>
    refine (named_or_implicit_of_mem rfl h).imp_right fun himplicit => ?_
    rcases himplicit with rfl | rfl | rfl | rfl <;> exact ⟨_, rfl⟩

/-- All registers that code names are proper. -/
def Named (code : List Instr) : Prop := ∀ x ∈ code, ∀ r ∈ x.namedRegs, r.Proper

instance (r : Reg) : Decidable r.Proper := inferInstanceAs (Decidable (Reg.ofName r.name = r))

instance (code : List Instr) : Decidable (Named code) :=
  inferInstanceAs (Decidable (∀ x ∈ code, ∀ r ∈ x.namedRegs, r.Proper))

theorem Named.proper {code : List Instr} (h : Named code) (hx : x ∈ code)
    (hr : r ∈ uses x ∨ r ∈ defs x) : r.Proper := by
  rcases named_or_machine_of_mem hr with hr | ⟨q, rfl⟩
  · exact h x hx r hr
  · exact proper_machine q

/-! ## Colours -/

/-- A register under a colouring. Those of the machine stand for themselves. -/
def colored (color : Name → MachineReg) : Reg → Reg
  | .abstract n => .machine (color n)
  | r => r

/-- Colours are of the palette, and registers that interfere become different ones. -/
structure ProperColoring (g : Interference) (vars : Vars) (color : Name → MachineReg) :
    Prop where
  palette : ∀ n, color n ∈ Alloc.palette
  apart : ∀ {a b r q}, b ∈ g.edges.getD a .empty → vars.regs[a]? = some r →
    vars.regs[b]? = some q → colored color r ≠ colored color q

/-- A colour is neither of the pointers. -/
theorem colored_inj_pointer {color : Name → MachineReg} (h : ∀ n, color n ∈ palette) {d : Reg}
    (hr : r = .rsp ∨ r = .rbp) (hrd : colored color r = colored color d) : r = d := by
  have hpointer : ∀ q ∈ palette, q ≠ .rsp ∧ q ≠ .rbp := by decide
  cases d with
  | machine q =>
    rcases hr with rfl | rfl
    · exact hrd
    · exact hrd
  | rip => rcases hr with rfl | rfl <;> cases hrd
  | abstract n =>
    rcases hr with rfl | rfl
    · exact absurd (Reg.machine.inj hrd).symm (hpointer _ (h n)).1
    · exact absurd (Reg.machine.inj hrd).symm (hpointer _ (h n)).2

section

variable {code : List Instr} {returns : Bool} {live : Liveness} {i j : Nat} {x : Instr} {r d : Reg}

variable (h : live.Solves code returns)

include h

theorem lt_of_liveBefore (hr : live.LiveBefore i r) :
    i < code.length := by
  obtain ⟨k, _, hk⟩ := hr
  by_contra hi
  rw [Array.getD_eq_getD_getElem?, Array.getElem?_eq_none (by rw [h.width]; omega)] at hk
  simp at hk

/-- Control goes on within the code to a position that can follow. -/
theorem follows_of_next (hx : code[i]? = some x) (hret : x ≠ .ret)
    (hnext : Next (labelTable code) i x j) (hj : j < code.length) : Follows code i j := by
  obtain ⟨p, _, hp⟩ := h.point hx
  refine ⟨x, p.succs, hx, hp.succs, ?_⟩
  have hsuccs := hp.succs
  cases hnext with
  | fall hfall =>
    have hmem : i + 1 ∈ fallThrough code.length i := by simp [fallThrough, hj]
    cases x with
    | jump c l =>
      grind [successorsAt, Except.ok.inj, mem_cons_of_mem]
    | ret => exact absurd rfl hret
    | _ =>
      rw [← Except.ok.inj hsuccs]
      exact hmem
  | jump hl =>
    rw [successorsAt, hl] at hsuccs
    rw [← Except.ok.inj hsuccs]
    exact mem_cons_self

theorem liveBehind_of_next (hx : code[i]? = some x)
    (hret : x ≠ .ret) (hnext : Next (labelTable code) i x j) (hr : live.LiveBefore j r) :
    live.LiveBehind i r := by
  grind [List.getElem?_eq_some_iff, h.liveBehind_iff, follows_of_next, lt_of_liveBefore]

omit h

theorem reads_of_mem (hx : code[i]? = some x) (hr : r ∈ uses x) : Reads code returns i r :=
  ⟨x, r, hx, .inl hr, rfl⟩

include h

/-- What lives behind an instruction and is not written there lives before it. -/
theorem liveBefore_of_liveBehind (hnamed : Named code)
    (hx : code[i]? = some x) (hproper : r.Proper) (hr : live.LiveBehind i r) (hdefs : r ∉ defs x) :
    live.LiveBefore i r := by
  refine (h.liveBefore_iff (List.getElem?_eq_some_iff.mp hx).1).mpr (.inr ⟨hr, ?_⟩)
  rintro ⟨y, q, hy, hq, hname⟩
  obtain rfl := Option.some.inj (hx.symm.trans hy)
  have hqproper := hnamed.proper (mem_of_getElem? hx) (.inr hq)
  exact hdefs ((hqproper.name_inj hproper).mp hname ▸ hq)

/-- The number of a proper register is its own. -/
theorem getElem?_of_id? (hnamed : Named code) (hproper : r.Proper)
    {k : Nat} (hk : live.vars.id? r = some k) : live.vars.regs[k]? = some r := by
  obtain ⟨q, hq, hname⟩ := h.fits.id?_eq_some.mp hk
  have hqproper : q.Proper := by
    grind [h.known, proper_machine, hnamed.proper]
  rw [hq, (hqproper.name_inj hproper).mp hname]

/-- A register that is live where another is written interferes with it, unless it is copied
there. -/
theorem exists_edge_or_copied (hnamed : Named code)
    (hx : code[i]? = some x) (hproper : r.Proper) (hd : d ∈ defs x) (hr : live.LiveBehind i r)
    (hne : r ≠ d) :
    (∃ a b, b ∈ (interference code live).edges.getD a .empty ∧
      live.vars.regs[a]? = some d ∧ live.vars.regs[b]? = some r) ∨
    x = .mov (.reg d) (.reg r) := by
  have hmem := mem_of_getElem? hx
  obtain ⟨p, hpoint, hp⟩ := h.point hx
  obtain ⟨a, ha⟩ := h.numbered hx (.inr hd)
  obtain ⟨b, hb, hlive⟩ := hr
  have hareg := getElem?_of_id? h hnamed (hnamed.proper hmem (.inr hd)) ha
  have hbreg := getElem?_of_id? h hnamed hproper hb
  have hbehind : live.behind.getD i .empty = p.liveBehind live.before := by
    rw [Array.getD_eq_getD_getElem?, hp.behind]
    rfl
  rw [hbehind] at hlive
  have hab : b ≠ a := by
    rintro rfl
    exact hne (Option.some.inj (hbreg.symm.trans hareg))
  have hannotated : (x, p, p.liveBehind live.before) ∈ annotated code live :=
    mem_of_getElem? (getElem?_annotated.mpr ⟨hx, hpoint, hp.behind⟩)
  have hedge : b ∈ conflicts live.vars x p (p.liveBehind live.before) →
      ∃ a b, b ∈ (interference code live).edges.getD a .empty ∧
        live.vars.regs[a]? = some d ∧ live.vars.regs[b]? = some r := by
    intro hconflict
    refine ⟨a, b, ?_, hareg, hbreg⟩
    exact (records_interference h).apart hannotated (hp.defs.mpr ⟨d, hd, ha⟩) hconflict hab
  cases hcopy : copy? live.vars x with
  | none =>
    refine .inl (hedge ?_)
    simp only [conflicts, hcopy]
    exact KeySet.mem_union.mpr (.inl hlive)
  | some c =>
    obtain ⟨q, s, rfl, _, _⟩ := eq_mov_of_copy? hcopy
    obtain rfl : d = q := by simpa [Operand.target] using hd
    by_cases hrs : r = s
    · exact .inr (hrs ▸ rfl)
    · refine .inl (hedge ?_)
      simp only [conflicts, hcopy]
      refine KeySet.mem_union.mpr (.inl (KeySet.mem_diff.mpr ⟨hlive, ?_⟩))
      intro huse
      obtain ⟨u, hu, hid⟩ := hp.uses.mp huse
      rcases hu with hu | ⟨_, hend, _⟩
      · obtain rfl : u = s := by simpa [Operand.regs, Operand.indirect] using hu
        have hsreg := getElem?_of_id? h hnamed (hnamed.proper hmem (.inl hu)) hid
        exact hrs (Option.some.inj (hbreg.symm.trans hsreg))
      · -- nothing is live behind the last instruction
        obtain ⟨j, hj, hjlive⟩ := contains_liveBehind.mp hlive
        have hlast : i + 1 = code.length := hend.resolve_left Instr.noConfusion
        have hnone : fallThrough code.length i = p.succs := Except.ok.inj hp.succs
        rw [← hnone, fallThrough, if_neg (by omega)] at hj
        cases hj

omit h

/-- The registers that matter at a position: those that are live, and the pointers. -/
def Tracked (live : Liveness) (i : Nat) (r : Reg) : Prop :=
  r.Proper ∧ (live.LiveBefore i r ∨ r = .rsp ∨ r = .rbp)

include h in
/-- Code under a proper colouring tracks its live registers. -/
theorem recolors_tracked {color : Name → MachineReg} (hnamed : Named code) (hret : .ret ∉ code)
    (hcolor : ProperColoring (interference code live) live.vars color) :
    Recolors (labelTable code) code (colored color) (Tracked live) where
  machine _ := rfl
  rip r := by cases r <;> simp [colored]
  rsp _ := ⟨proper_machine _, .inr (.inl rfl)⟩
  rbp _ := ⟨proper_machine _, .inr (.inr rfl)⟩
  used {i x r} hx hr := by
    have hmem := mem_of_getElem? hx
    refine ⟨hnamed.proper hmem (.inl hr), .inl ?_⟩
    exact (h.liveBefore_iff (List.getElem?_eq_some_iff.mp hx).1).mpr (.inl (reads_of_mem hx hr))
  kept {i x j r} hx hnext hr hdefs := by
    obtain ⟨hproper, hlive | hpointer⟩ := hr
    · have hxret : x ≠ .ret := fun hx' => hret (hx' ▸ mem_of_getElem? hx)
      have hbehind := liveBehind_of_next h hx hxret hnext hlive
      exact ⟨hproper, .inl (liveBefore_of_liveBehind h hnamed hx hproper hbehind hdefs)⟩
    · exact ⟨hproper, .inr hpointer⟩
  apart {i x j d r} hx hnext hd hr hne hclash := by
    obtain ⟨hproper, hlive | hpointer⟩ := hr
    · have hxret : x ≠ .ret := fun hx' => hret (hx' ▸ mem_of_getElem? hx)
      have hbehind := liveBehind_of_next h hx hxret hnext hlive
      rcases exists_edge_or_copied h hnamed hx hproper hd hbehind hne with
        ⟨a, b, hedge, ha, hb⟩ | hcopy
      · exact absurd hclash.symm (hcolor.apart hedge ha hb)
      · exact hcopy
    · exact absurd (colored_inj_pointer hcolor.palette hpointer hclash) hne

end

/-! ## Copies of a register to itself -/

/-- What a copy or another instruction becomes without copies of a register to itself. -/
theorem withoutSelfCopy_cases (x : Instr) :
    (∃ r text, x = .mov (.reg r) (.reg r) ∧ Finish.withoutSelfCopy x = .comment text) ∨
      Finish.withoutSelfCopy x = x := by
  unfold Finish.withoutSelfCopy
  split
  next d r =>
    split
    next heq => exact .inl ⟨d, _, by rw [heq], rfl⟩
    next => exact .inr rfl
  next => exact .inr rfl

/-- An instruction that becomes a copy of a register to itself may become a comment. -/
theorem becomes_comment {φ : Reg → Reg} (h : x.mapRegs φ = .mov (.reg r) (.reg r)) (text : Bytes) :
    Becomes φ x (.comment text) := by
  cases x with
  | mov d a =>
    obtain ⟨hd, ha⟩ := Instr.mov.inj h
    cases d with
    | reg d =>
      cases a with
      | reg a => exact .copy text ((Operand.reg.inj hd).trans (Operand.reg.inj ha).symm)
      | _ => cases ha
    | _ => cases hd
  | _ => cases h

theorem becomes_withoutSelfCopy (φ : Reg → Reg) (x : Instr) :
    Becomes φ x (Finish.withoutSelfCopy (x.mapRegs φ)) := by
  rcases withoutSelfCopy_cases (x.mapRegs φ) with ⟨r, text, hmov, hcomment⟩ | hsame
  · rw [hcomment]
    exact becomes_comment hmov text
  · rw [hsame]
    exact .renamed x

end X64Backend.Alloc
