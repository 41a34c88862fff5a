import X64Backend.Proofs.Alloc.Enclosing
import X64Backend.Proofs.Alloc.Lodging
import X64Backend.Proofs.Alloc.Separation

/-! # The last round keeps the meaning

The last round puts colours in the place of registers, leaves out the moves that keep
callee-saved registers which are nobody's colour, and numbers the slots anew. A register that
keeps such a register can stand for it all the time: then the moves that are left out only
copy a register to itself.
-/

namespace X64Backend.Alloc

open Asm Machine Dataflow List

/-! ## What code reads and writes with slots seen as registers -/

section

variable {P : Reg → Prop} {slot : Nat → Prop} {sym : Name → Prop} {home : Nat → Reg} {a : Operand}
  {x : Instr} {r : Reg}

theorem target_subset_homed (home : Nat → Reg) (a : Operand) :
    a.target ⊆ (homed home a).target := by
  cases a with
  | mem m => exact nil_subset _
  | _ => exact List.Subset.refl _

theorem defs_subset_homed (home : Nat → Reg) (x : Instr) : defs x ⊆ defs (homedInstr home x) := by
  cases x with
  | mov d a | arith op d a | neg d | shl d k =>
    simpa [homedInstr, Instr.mapOperands] using target_subset_homed home d
  | _ => simp [homedInstr, Instr.mapOperands]

variable (hslot : ∀ {k}, slot k → IsSlot k) (hrbp : ¬ P .rbp)

include hslot hrbp

theorem homed_cases (home : Nat → Reg) (ha : a.Fine P slot sym) :
    homed home a = a ∨ ∃ k, slot k ∧ homed home a = .reg (home k) := by
  cases a with
  | mem m =>
    rcases ha with ⟨k, hk, rfl⟩ | hm
    · exact .inr ⟨k, hk, homed_slot home (hslot hk)⟩
    · exact .inl (homed_plain home hm hrbp)
  | _ => exact .inl rfl

theorem mem_homed {f : Operand → List Reg} (hf : ∀ q, f (.reg q) ⊆ [q]) (ha : a.Fine P slot sym)
    (hr : r ∈ f (homed home a)) : r ∈ f a ∨ ∃ k, slot k ∧ r = home k := by
  rcases homed_cases hslot hrbp home ha with heq | ⟨k, hk, heq⟩
  · exact .inl (heq ▸ hr)
  · rw [heq] at hr
    exact .inr ⟨k, hk, mem_singleton.mp (hf _ hr)⟩

/-- What an instruction reads with slots seen as registers: what it reads, and slots. -/
theorem uses_homed (hx : x.Fine P slot sym) (hr : r ∈ uses (homedInstr home x)) :
    r ∈ uses x ∨ ∃ k, slot k ∧ r = home k := by
  have hregs {a : Operand} (ha : a.Fine P slot sym) (hr : r ∈ (homed home a).regs) :=
    mem_homed hslot hrbp (f := Operand.regs) (fun _ => List.Subset.refl _) ha hr
  have hindirect {a : Operand} (ha : a.Fine P slot sym) (hr : r ∈ (homed home a).indirect) :=
    mem_homed hslot hrbp (f := Operand.indirect) (fun _ => nil_subset _) ha hr
  cases x with
  | call a =>
    rcases hx with ⟨n, rfl⟩ | ha
    · exact .inl hr
    · simp only [homedInstr, Instr.mapOperands, uses_call, mem_append] at hr ⊢
      grind
  | arith op d a =>
    rcases hx with ⟨rfl, _, v, rfl⟩ | ⟨hd, ha⟩
    · exact .inl hr
    · simp only [homedInstr, Instr.mapOperands, uses_arith, mem_append] at hr ⊢
      grind
  | _ =>
    simp only [homedInstr, Instr.mapOperands, uses_mov, uses_cmp, uses_imul, uses_imul3, uses_idiv,
      uses_neg, uses_shl, uses_push, mem_append, mem_cons] at hr ⊢
    grind [Instr.Fine]

/-- What an instruction writes with slots seen as registers: what it writes, and slots. -/
theorem defs_homed (hx : x.Fine P slot sym) (hr : r ∈ defs (homedInstr home x)) :
    r ∈ defs x ∨ ∃ k, slot k ∧ r = home k := by
  have htarget {a : Operand} (ha : a.Fine P slot sym) (hr : r ∈ (homed home a).target) :=
    mem_homed hslot hrbp (f := Operand.target) (fun _ => List.Subset.refl _) ha hr
  cases x with
  | arith op d a =>
    rcases hx with ⟨rfl, _, v, rfl⟩ | ⟨hd, _⟩
    · exact .inl hr
    · simp only [homedInstr, Instr.mapOperands, defs_arith] at hr ⊢
      exact htarget hd hr
  | _ =>
    simp only [homedInstr, Instr.mapOperands, defs_mov, defs_neg, defs_shl, defs_cmp, defs_call,
      defs_imul, defs_imul3, defs_idiv, defs_push] at hr ⊢
    grind [Instr.Fine]

end

theorem named_of_fine {P : Reg → Prop} {slot : Nat → Prop} {sym : Name → Prop} {code : List Instr}
    (h : ∀ x ∈ code, x.Fine P slot sym) (hP : ∀ r, P r → r.Proper) : Named code := by
  intro x hx r hr
  by_cases hrip : r = .rip
  · exact hrip ▸ proper_rip
  · rcases reg_of_fine (h x hx) (Shape.mem_uses_or_defs_of_named hr hrip) with hr | ⟨q, rfl⟩
    · exact hP r hr
    · exact proper_machine q

/-! ## Positions in enclosed code -/

/-- What stands where in code with the moves around it. -/
inductive Spot (slots : Slots) (mid : List Instr) : Nat → Instr → Prop
  | save {k : Nat} {q : MachineReg} (h : MachineReg.calleeSaved[k]? = some q) :
      Spot slots mid k (.mov (keeper slots q) (.reg (.machine q)))
  | own {k : Nat} {x : Instr} (h : mid[k]? = some x) : Spot slots mid (5 + k) x
  | restore {k : Nat} {q : MachineReg} (h : MachineReg.calleeSaved[k]? = some q) :
      Spot slots mid (5 + mid.length + k) (.mov (.reg (.machine q)) (keeper slots q))
  | last : Spot slots mid (10 + mid.length) (.comment "Dummy end of program.")

theorem spot_of_getElem? {slots : Slots} {mid : List Instr} {i : Nat} {x : Instr}
    (h : (enclosed slots mid)[i]? = some x) : Spot slots mid i x := by
  have hsaves : (saves slots).length = 5 := rfl
  have hrestores : (restores slots).length = 5 := rfl
  unfold enclosed at h
  rw [append_assoc, append_assoc] at h
  by_cases hi : i < 5
  · rw [getElem?_append_left (by omega), saves, getElem?_map,
      Option.map_eq_some_iff] at h
    obtain ⟨q, hq, rfl⟩ := h
    exact .save hq
  rw [getElem?_append_right (by omega), hsaves] at h
  obtain ⟨k, rfl⟩ : ∃ k, i = 5 + k := ⟨i - 5, by omega⟩
  rw [Nat.add_sub_cancel_left] at h
  by_cases hk : k < mid.length
  · rw [getElem?_append_left hk] at h
    exact .own h
  rw [getElem?_append_right (by omega)] at h
  obtain ⟨j, rfl⟩ : ∃ j, k = mid.length + j := ⟨k - mid.length, by omega⟩
  rw [Nat.add_sub_cancel_left] at h
  by_cases hj : j < 5
  · rw [getElem?_append_left (by omega), restores, getElem?_map,
      Option.map_eq_some_iff] at h
    obtain ⟨q, hq, rfl⟩ := h
    rw [← Nat.add_assoc]
    exact .restore hq
  rw [getElem?_append_right (by omega), hrestores] at h
  obtain ⟨hlt, rfl⟩ := List.getElem?_eq_some_iff.mp h
  obtain rfl : j = 5 := by
    simp only [length_singleton] at hlt
    omega
  rw [show 5 + (mid.length + 5) = 10 + mid.length by omega]
  exact .last

theorem length_enclosed (slots : Slots) (mid : List Instr) :
    (enclosed slots mid).length = 11 + mid.length := by
  simp only [enclosed, length_append, show (saves slots).length = 5 from rfl,
    show (restores slots).length = 5 from rfl, length_singleton]
  omega

/-- Labels stand among the function's own instructions. -/
theorem position?_enclosed_lt {slots : Slots} {mid : List Instr} {l : Name} {j : Nat}
    (h : position? (enclosed slots mid) l = some j) : 5 ≤ j ∧ j < 5 + mid.length := by
  have hspot := spot_of_getElem? (getElem?_of_position? h)
  generalize hx : Instr.label l = x at hspot
  cases hspot with
  | save hq | restore hq | last => cases hx
  | own hk =>
    have hlt := (List.getElem?_eq_some_iff.mp hk).1
    omega

/-! ## The last round -/

/-- The register that a register becomes, if one that keeps an unused register stands for
it. -/
def Finish.final (f : Finish) (r : Reg) : Reg :=
  match f.unused.find? fun u => r = .saved (.machine u) with
  | some u => .machine u
  | none => f.reg r

/-- Code before the last round, what is live in it, and the colours that it gets. -/
structure Closing where
  first : List Instr
  issued : Nat
  mid : List Instr
  returns : Bool
  live : Liveness
  f : Finish
  stage : Stage first f.slots issued mid
  small : f.slots.size < 2 ^ 60
  solves : live.Solves (enclosed f.slots mid) returns
  unused : ∀ u ∈ f.unused, u ∈ MachineReg.calleeSaved
  unusedColor {n : Name} {c : MachineReg} (h : f.colors[n]? = some c) : c ∉ f.unused
  palette {n : Name} {c : MachineReg} (h : f.colors[n]? = some c) : c ∈ Alloc.palette
  nameable {n : Name} {c : MachineReg} (h : f.colors[n]? = some c) :
    ∃ r : Reg, r.name = n ∧ (∀ q, r ≠ .machine q) ∧ Nameable f.slots issued r
  color {x : Instr} {r : Reg} (hx : x ∈ enclosed f.slots mid) (hr : r ∈ uses x ∨ r ∈ defs x) :
    IsMachine r ∨ ∃ c, f.colors[r.name]? = some c
  apart {a b : Nat} {r q : Reg} (h : b ∈ (interference (enclosed f.slots mid) live).edges.getD a
    .empty) (ha : live.vars.regs[a]? = some r) (hb : live.vars.regs[b]? = some q) :
    f.reg r ≠ f.reg q

namespace Closing

variable {C : Closing} {i j : Nat} {x : Instr} {r d : Reg} {u q c : MachineReg}
variable {n : Name} {k : Nat}

/-- The code before the last round. -/
abbrev code (C : Closing) : List Instr := enclosed C.f.slots C.mid

/-- An instruction with slots seen as registers. -/
abbrev view (C : Closing) (x : Instr) : Instr := viewed C.f.slots x

/-! ### Registers -/

theorem reg_of_color (hc : C.f.colors[r.name]? = some c) : C.f.reg r = .machine c := by
  rw [Finish.reg, hc]

theorem reg_of_none (hc : C.f.colors[r.name]? = none) : C.f.reg r = r := by
  rw [Finish.reg, hc]

/-- Registers that are not worked on have no colour. -/
theorem colors_eq_none (C : Closing) (hr : r.Proper)
    (h : ∀ q, (∀ m, q ≠ .machine m) → Nameable C.f.slots C.issued q → q ≠ r) :
    C.f.colors[r.name]? = none := by
  cases hc : C.f.colors[r.name]? with
  | none => rfl
  | some c =>
    obtain ⟨q, hname, hmachine, hq⟩ := C.nameable hc
    exact absurd ((hq.workable.proper.name_inj hr).mp hname) (h q hmachine hq)

theorem colors_machine (C : Closing) (q : MachineReg) :
    C.f.colors[(Reg.machine q).name]? = none :=
  C.colors_eq_none (proper_machine q) fun _ hm _ => hm q

theorem colors_rip (C : Closing) : C.f.colors[Reg.rip.name]? = none :=
  C.colors_eq_none proper_rip fun _ _ hq => hq.workable.rip

theorem colors_slot (hn : C.f.slots[n]? = some k) : C.f.colors[n]? = none := by
  cases hc : C.f.colors[n]? with
  | none => rfl
  | some c =>
    obtain ⟨q, rfl, _, hq⟩ := C.nameable hc
    rw [hq.free] at hn
    cases hn

theorem final_saved (hu : u ∈ C.f.unused) : C.f.final (.saved (.machine u)) = .machine u := by
  grind [Finish.final, Reg.saved, saved_inj, find?_eq_none]

theorem final_of_ne (h : ∀ u ∈ C.f.unused, r ≠ .saved (.machine u)) :
    C.f.final r = C.f.reg r := by
  grind [Finish.final, mem_of_find?_eq_some]

theorem final_machine (C : Closing) (q : MachineReg) : C.f.final (.machine q) = .machine q := by
  rw [final_of_ne (r := .machine q) fun _ _ => nofun, reg_of_none (C.colors_machine q)]

/-- What becomes a register of the machine: itself, a register that keeps it if it is unused,
and those that have it as their colour. -/
theorem final_eq_machine (h : C.f.final r = .machine c) :
    r = .machine c ∨ c ∈ C.f.unused ∧ r = .saved (.machine c) ∨
      C.f.colors[r.name]? = some c ∧ ∀ u ∈ C.f.unused, r ≠ .saved (.machine u) := by
  by_cases hsaved : ∃ u ∈ C.f.unused, r = .saved (.machine u)
  · grind [final_saved, Reg.machine.inj]
  · have hne : ∀ u ∈ C.f.unused, r ≠ .saved (.machine u) := fun u hu heq => hsaved ⟨u, hu, heq⟩
    rw [final_of_ne hne] at h
    cases hc : C.f.colors[r.name]? with
    | none =>
      rw [reg_of_none hc] at h
      exact .inl h
    | some p =>
      rw [reg_of_color hc] at h
      exact .inr (.inr ⟨congrArg some (Reg.machine.inj h), hne⟩)

/-- What does not become a register of the machine stays. -/
theorem final_cases (C : Closing) (r : Reg) : C.f.final r = r ∨ IsMachine (C.f.final r) := by
  by_cases hsaved : ∃ u ∈ C.f.unused, r = .saved (.machine u)
  · obtain ⟨u, hu, rfl⟩ := hsaved
    exact .inr ⟨u, final_saved hu⟩
  · rw [final_of_ne fun u hu heq => hsaved ⟨u, hu, heq⟩]
    cases hc : C.f.colors[r.name]? with
    | none => exact .inl (reg_of_none hc)
    | some p => exact .inr ⟨p, reg_of_color hc⟩

theorem final_rip (C : Closing) : C.f.final r = .rip ↔ r = .rip := by
  constructor
  · intro h
    rcases C.final_cases r with heq | ⟨q, hq⟩
    · exact heq.symm.trans h
    · rw [h] at hq
      cases hq
  · rintro rfl
    rw [final_of_ne (r := .rip) fun _ _ => nofun, reg_of_none C.colors_rip]

/-- Registers that have a slot which stays. -/
def Slotted (C : Closing) (r : Reg) : Prop :=
  (∃ k, C.f.slots[r.name]? = some k) ∧ ∀ u ∈ C.f.unused, r ≠ .saved (.machine u)

theorem Slotted.final (h : C.Slotted r) : C.f.final r = r := by
  obtain ⟨⟨k, hk⟩, hne⟩ := h
  rw [final_of_ne hne, reg_of_none (colors_slot hk)]

theorem Slotted.not_machine (h : C.Slotted r) : ¬ IsMachine r := by
  rintro ⟨q, rfl⟩
  obtain ⟨⟨k, hk⟩, _⟩ := h
  rw [C.stage.machine_free q] at hk
  cases hk

/-! ### Positions -/

theorem isSlot (hn : C.f.slots[n]? = some k) : IsSlot k :=
  isSlot_of_dense C.stage.dense C.small hn

theorem isSlot_of_kept (hk : k ∈ C.f.kept) : IsSlot k := by
  obtain ⟨⟨n, hn⟩, _⟩ := Finish.mem_kept.mp hk
  exact isSlot hn

/-- A slot that has a name other than those of kept registers stays. -/
theorem kept_of_own (hk : ∃ n : Name, C.f.slots[n]? = some k ∧ ¬ SavedName n) : k ∈ C.f.kept := by
  obtain ⟨n, hn, hsaved⟩ := hk
  refine Finish.mem_kept.mpr ⟨⟨n, hn⟩, fun hdropped => ?_⟩
  obtain ⟨u, _, hk'⟩ := mem_filterMap.mp hdropped
  exact hsaved ⟨u, C.stage.dense.inj hn hk'⟩

theorem homed_keeper (C : Closing) (q : MachineReg) :
    homed (homeOf C.f.slots) (keeper C.f.slots q) = .reg (.saved (.machine q)) := by
  cases hn : C.f.slots[(Reg.saved (.machine q)).name]? with
  | none =>
    rw [keeper_of_none hn]
    rfl
  | some k =>
    rw [keeper_of_slot hn, homed_slot _ (isSlot hn),
      homeOf_name C.stage.dense (Reg.ofName_saved _) hn]

theorem view_save (C : Closing) (q : MachineReg) :
    C.view (.mov (keeper C.f.slots q) (.reg (.machine q))) =
      .mov (.reg (.saved (.machine q))) (.reg (.machine q)) := by
  simp only [homedInstr, Instr.mapOperands, homed_keeper, homed_reg]

theorem view_restore (C : Closing) (q : MachineReg) :
    C.view (.mov (.reg (.machine q)) (keeper C.f.slots q)) =
      .mov (.reg (.machine q)) (.reg (.saved (.machine q))) := by
  simp only [homedInstr, Instr.mapOperands, homed_keeper, homed_reg]

/-! ### Tracked registers -/

theorem named (C : Closing) : Named C.code :=
  named_of_fine (fun _ hx => C.stage.enclosed_fine hx) fun _ hr => hr.workable.proper

theorem ret_not_mem (C : Closing) : .ret ∉ C.code := fun hmem => C.stage.enclosed_fine hmem

/-- The registers that matter at a position: those that are live, the pointers, those with
slots that stay, the unused ones with what keeps them once it does, the callee-saved ones once
they are restored, and at the end the result. -/
inductive Tracks (C : Closing) (i : Nat) : Reg → Prop
  | live {r : Reg} (hr : r.Proper) (h : C.live.LiveBefore i r) : Tracks C i r
  | rsp : Tracks C i .rsp
  | rbp : Tracks C i .rbp
  | slot {r : Reg} (h : C.Slotted r) : Tracks C i r
  | unused {u : MachineReg} (hu : u ∈ C.f.unused) : Tracks C i (.machine u)
  | saved {u : MachineReg} {k : Nat} (hu : u ∈ C.f.unused)
      (hk : MachineReg.calleeSaved[k]? = some u) (hlt : k < i) : Tracks C i (.saved (.machine u))
  | restored {q : MachineReg} {k : Nat} (hk : MachineReg.calleeSaved[k]? = some q)
      (hlt : 5 + C.mid.length + k < i) : Tracks C i (.machine q)
  | result (h : C.returns = true) (hi : i = C.code.length) : Tracks C i .rax

variable (hx : C.code[i]? = some x)

include hx in
theorem tracks_of_uses (hr : r ∈ uses x) : C.Tracks i r := by
  refine .live (C.named.proper (mem_of_getElem? hx) (.inl hr)) ?_
  exact (C.solves.liveBefore_iff (List.getElem?_eq_some_iff.mp hx).1).mpr
    (.inl (reads_of_mem hx hr))

/-- The home of a slot that stays. -/
theorem slotted_of_kept (hk : k ∈ C.f.kept) : C.Slotted (homeOf C.f.slots k) := by
  obtain ⟨⟨n, hn⟩, hdropped⟩ := Finish.mem_kept.mp hk
  obtain ⟨r, rfl, hr, _⟩ := C.stage.spillable n k hn
  rw [homeOf_name C.stage.dense hr.proper hn]
  refine ⟨⟨k, hn⟩, ?_⟩
  rintro u hu rfl
  exact hdropped (mem_filterMap.mpr ⟨u, hu, hn⟩)

theorem not_own_rbp (C : Closing) : ¬ (Nameable C.f.slots C.issued .rbp ∧ Own .rbp) :=
  fun h => h.1.workable.rbp rfl

include hx in
/-- Registers that are read are tracked. -/
theorem tracks_view (hr : r ∈ uses (C.view x)) : C.Tracks i r := by
  have hspot := spot_of_getElem? hx
  cases hspot with
  | save hq =>
    rw [view_save] at hr
    obtain rfl : r = .machine _ := by simpa [Operand.indirect, Operand.regs] using hr
    exact tracks_of_uses hx (by simp [Operand.regs])
  | own hk =>
    have hfine := C.stage.fine (mem_of_getElem? hk)
    rcases uses_homed (isSlot_of_kept <| kept_of_own ·) C.not_own_rbp hfine hr with hr | ⟨k, hk, rfl⟩
    · exact tracks_of_uses hx hr
    · exact .slot (slotted_of_kept (kept_of_own hk))
  | @restore k q hq =>
    rw [view_restore] at hr
    obtain rfl : r = .saved (.machine q) := by simpa [Operand.indirect, Operand.regs] using hr
    cases hn : C.f.slots[(Reg.saved (.machine q)).name]? with
    | none =>
      refine tracks_of_uses hx ?_
      rw [keeper_of_none hn]
      simp [Operand.regs]
    | some n =>
      by_cases hu : q ∈ C.f.unused
      · have hlt := (List.getElem?_eq_some_iff.mp hq).1
        exact .saved hu hq (by omega)
      · refine .slot ⟨⟨n, hn⟩, fun u hmem heq => hu ?_⟩
        rwa [saved_inj heq]
  | last => cases hr

/-- Control goes where it goes without slots seen as registers. -/
theorem next_of_view {globals : Std.TreeMap Name Int64}
    (h : Next (imageOf globals (C.code.map C.view)).labels i (C.view x) j) :
    Next (labelTable C.code) i x j := by
  have hjump : ∀ {c l}, C.view x = .jump c l ↔ x = .jump c l := by
    intro c l
    cases x <;> simp [homedInstr, Instr.mapOperands]
  generalize hy : C.view x = y at h
  cases h with
  | fall hfall =>
    refine .fall fun c l hx => hfall c l ?_
    rw [← hy, hjump, hx]
  | @jump c l _ hl =>
    rw [hjump.mp hy]
    refine .jump ?_
    rw [labelTable_getElem?, ← position?_homed, ← labelTable_getElem?]
    exact hl

include hx

/-- Control goes on to the next position, or from one of the function's own instructions to
another. -/
theorem next_cases (h : Next (labelTable C.code) i x j) :
    j = i + 1 ∨ (5 ≤ i ∧ i < 5 + C.mid.length) ∧ 5 ≤ j ∧ j < 5 + C.mid.length := by
  cases h with
  | fall => exact .inl rfl
  | @jump c l _ hl =>
    right
    rw [labelTable_getElem?] at hl
    refine ⟨?_, position?_enclosed_lt hl⟩
    have hspot := spot_of_getElem? hx
    generalize hy : Instr.jump c l = y at hspot
    cases hspot with
    | save hq | restore hq | last => cases hy
    | own hk =>
      have hlt := (List.getElem?_eq_some_iff.mp hk).1
      omega

/-- What is tracked behind an instruction and not written by it is tracked before it. -/
theorem tracks_kept (hnext : Next (labelTable C.code) i x j)
    (hr : C.Tracks j r) (hdefs : r ∉ defs (C.view x)) : C.Tracks i r := by
  have hspot := spot_of_getElem? hx
  have hcases := next_cases hx hnext
  have hfive : ∀ {k : Nat} {q : MachineReg}, MachineReg.calleeSaved[k]? = some q → k < 5 :=
    fun hk => (List.getElem?_eq_some_iff.mp hk).1
  have hinj : ∀ {k k' : Nat} {q : MachineReg}, MachineReg.calleeSaved[k]? = some q →
      k = k' → MachineReg.calleeSaved[k']? = some q := fun hk h => h ▸ hk
  cases hr with
  | live hproper hlive =>
    have hret : x ≠ .ret := fun h => C.ret_not_mem (h ▸ mem_of_getElem? hx)
    have hbehind := liveBehind_of_next C.solves hx hret hnext hlive
    refine .live hproper (liveBefore_of_liveBehind C.solves C.named hx hproper hbehind ?_)
    exact fun hr => hdefs (defs_subset_homed _ x hr)
  | rsp => exact .rsp
  | rbp => exact .rbp
  | slot h => exact .slot h
  | unused hu => exact .unused hu
  | @saved u k hu hk hlt =>
    by_cases hki : k < i
    · exact .saved hu hk hki
    -- the move that saves it stands here
    have hlt' := hfive hk
    obtain rfl : k = i := by omega
    cases hspot with
    | save hq =>
      obtain rfl := Option.some.inj (hk.symm.trans hq)
      rw [view_save] at hdefs
      exact absurd (by simp [Operand.target]) hdefs
    | own hk' | restore hq | last => omega
  | @restored q k hk hlt =>
    by_cases hki : 5 + C.mid.length + k < i
    · exact .restored hk hki
    -- the move that restores it stands here
    have hlt' := hfive hk
    obtain rfl : i = 5 + C.mid.length + k := by omega
    generalize hi : 5 + C.mid.length + k = i at hspot
    cases hspot with
    | save hq =>
      have := hfive hq
      omega
    | own hk' =>
      have := (List.getElem?_eq_some_iff.mp hk').1
      omega
    | restore hq =>
      obtain rfl := Option.some.inj ((hinj hk (by omega)).symm.trans hq)
      rw [view_restore] at hdefs
      exact absurd (by simp [Operand.target]) hdefs
    | last => omega
  | result hreturns hj =>
    rw [length_enclosed] at hj
    obtain rfl : i = 10 + C.mid.length := by omega
    refine .live (proper_machine .rax) ?_
    have hi := (List.getElem?_eq_some_iff.mp hx).1
    refine (C.solves.liveBefore_iff hi).mpr (.inl ⟨x, .rax, hx, .inr ⟨hreturns, ?_, rfl⟩, rfl⟩)
    rw [length_enclosed]
    exact .inr (by omega)

/-- A register that is live where another is written has a colour of its own, unless it is
copied there. -/
theorem eq_mov_of_live (hnext : Next (labelTable C.code) i x j)
    (hd : d ∈ defs x) (hproper : r.Proper) (hlive : C.live.LiveBefore j r) (hne : r ≠ d)
    (hreg : C.f.reg r = C.f.reg d) : x = .mov (.reg d) (.reg r) := by
  have hret : x ≠ .ret := fun h => C.ret_not_mem (h ▸ mem_of_getElem? hx)
  have hbehind := liveBehind_of_next C.solves hx hret hnext hlive
  rcases exists_edge_or_copied C.solves C.named hx hproper hd hbehind hne with
    ⟨a, b, hedge, ha, hb⟩ | hcopy
  · exact absurd hreg.symm (C.apart hedge ha hb)
  · exact hcopy

/-- What is written with slots seen as registers is written, or has a slot. -/
theorem defs_of_view (hd : d ∈ defs (C.view x)) :
    d ∈ defs x ∨ ∃ k, C.f.slots[d.name]? = some k := by
  cases spot_of_getElem? hx with
  | @save k q hq =>
    rw [view_save] at hd
    obtain rfl : d = .saved (.machine q) := by simpa [Operand.target] using hd
    cases hn : C.f.slots[(Reg.saved (.machine q)).name]? with
    | none =>
      left
      rw [keeper_of_none hn]
      simp [Operand.target]
    | some k => exact .inr ⟨k, rfl⟩
  | own hk =>
    have hfine := C.stage.fine (mem_of_getElem? hk)
    rcases defs_homed (isSlot_of_kept <| kept_of_own ·) C.not_own_rbp hfine hd with hd | ⟨k, hk, rfl⟩
    · exact .inl hd
    · exact .inr (slotted_of_kept (kept_of_own hk)).1
  | restore hq =>
    rw [view_restore] at hd
    exact .inl (by simpa using hd)
  | last => exact .inl hd

/-- A callee-saved register is written where it is restored. -/
theorem eq_restore_of_defs (hq : q ∈ MachineReg.calleeSaved)
    (hd : .machine q ∈ defs (C.view x)) :
    C.view x = .mov (.reg (.machine q)) (.reg (.saved (.machine q))) := by
  cases spot_of_getElem? hx with
  | save hp =>
    rw [view_save] at hd
    simp [Operand.target, Reg.saved] at hd
  | own hk =>
    have hfine := C.stage.fine (mem_of_getElem? hk)
    rcases defs_of_view hx hd with hd | ⟨k, hk⟩
    · rcases def_of_fine hfine hd with hown | hrsp | ⟨p, hp, heq⟩
      · exact absurd rfl (hown.2.callee q hq)
      · exact absurd hrsp (workable_calleeSaved hq).rsp
      · obtain rfl := Reg.machine.inj heq
        exact absurd hp (not_callerSaved hq)
    · rw [C.stage.machine_free q] at hk
      cases hk
  | restore hp =>
    rw [view_restore] at hd ⊢
    obtain rfl : q = _ := by simpa [Operand.target] using hd
    rfl
  | last => cases hd

/-- What keeps a callee-saved register is written where that is saved. -/
theorem eq_save_of_defs (hd : .saved (.machine q) ∈ defs (C.view x)) :
    C.view x = .mov (.reg (.saved (.machine q))) (.reg (.machine q)) := by
  cases spot_of_getElem? hx with
  | save hp =>
    rw [view_save] at hd ⊢
    obtain rfl := saved_inj (mem_singleton.mp (by simpa [Operand.target] using hd))
    rfl
  | own hk =>
    have hfine := C.stage.fine (mem_of_getElem? hk)
    rcases defs_homed (isSlot_of_kept <| kept_of_own ·) C.not_own_rbp hfine hd with
      hd | ⟨k, ⟨n, hn, hsaved⟩, heq⟩
    · rcases def_of_fine hfine hd with hown | hrsp | ⟨p, hp, heq⟩
      · exact absurd ⟨q, rfl⟩ hown.2.saved
      · cases hrsp
      · cases heq
    · rw [homeOf_eq C.stage.dense hn] at heq
      obtain ⟨r, rfl, hr, _⟩ := C.stage.spillable n k hn
      exact absurd ⟨q, congrArg Reg.name (heq.trans hr.proper).symm⟩ hsaved
  | restore hp =>
    rw [view_restore] at hd
    simp [Operand.target, Reg.saved] at hd
  | last => cases hd

/-- Behind the function's own instructions only registers of the machine are written. -/
theorem machine_of_defs (hi : 5 + C.mid.length ≤ i)
    (hd : d ∈ defs (C.view x)) : IsMachine d := by
  cases spot_of_getElem? hx with
  | save hq =>
    have hlt := (List.getElem?_eq_some_iff.mp hq).1
    have hfive : MachineReg.calleeSaved.length = 5 := rfl
    omega
  | own hk =>
    have hlt := (List.getElem?_eq_some_iff.mp hk).1
    omega
  | @restore k q hq =>
    rw [view_restore] at hd
    exact ⟨q, by simpa [Operand.target] using hd⟩
  | last => cases hd

omit hx

/-- Of the tracked registers those that have a colour are live. -/
theorem Tracks.live_of_color (h : C.Tracks i r) (hc : C.f.colors[r.name]? = some c)
    (hne : ∀ u ∈ C.f.unused, r ≠ .saved (.machine u)) : r.Proper ∧ C.live.LiveBefore i r := by
  have hmachine : ∀ q, r ≠ .machine q := by
    rintro q rfl
    rw [C.colors_machine q] at hc
    cases hc
  cases h with
  | live hr h => exact ⟨hr, h⟩
  | slot h =>
    obtain ⟨⟨k, hk⟩, _⟩ := h
    rw [colors_slot hk] at hc
    cases hc
  | saved hu => exact absurd rfl (hne _ hu)
  | _ => exact absurd rfl (hmachine _)

/-- A tracked register of the machine that is somebody's colour is live, or only registers of
the machine are written before. -/
theorem Tracks.live_of_colored (h : C.Tracks j (.machine c)) (hc : C.f.colors[n]? = some c)
    (hx : C.code[i]? = some x) (hnext : Next (labelTable C.code) i x j) :
    C.live.LiveBefore j (.machine c) ∨ 5 + C.mid.length ≤ i := by
  have hpalette := C.palette hc
  have hcases := next_cases hx hnext
  generalize hr : Reg.machine c = r at h
  cases h with
  | live _ h => exact .inl h
  | rsp | rbp =>
    obtain rfl := Reg.machine.inj hr
    exact absurd hpalette (by decide)
  | slot h => exact absurd ⟨c, hr.symm⟩ h.not_machine
  | unused hu =>
    obtain rfl := Reg.machine.inj hr
    exact absurd hu (C.unusedColor hc)
  | saved hu => cases hr
  | restored hk hlt => exact .inr (by omega)
  | result _ hj =>
    rw [length_enclosed] at hj
    exact .inr (by omega)

include hx in
/-- A register that is written and a tracked one become the same only where the one is copied
to the other. -/
theorem eq_mov_of_final (hnext : Next (labelTable C.code) i x j)
    (hd : d ∈ defs (C.view x)) (hr : C.Tracks j r) (hne : r ≠ d)
    (hfinal : C.f.final r = C.f.final d) : C.view x = .mov (.reg d) (.reg r) := by
  have hcopy : ∀ {d r}, x = .mov (.reg d) (.reg r) → C.view x = .mov (.reg d) (.reg r) := by
    rintro d r rfl
    rfl
  obtain ⟨c, hcd⟩ : ∃ c, C.f.final d = .machine c := by
    rcases C.final_cases d with hself | hmachine
    · rcases C.final_cases r with hr' | ⟨c, hc⟩
      · exact absurd (hr'.symm.trans (hfinal.trans hself)) hne
      · exact ⟨c, hfinal ▸ hc⟩
    · exact hmachine
  have hwritten : ∀ {p}, C.f.colors[d.name]? = some p → d ∈ defs x := by
    intro p hp
    refine (defs_of_view hx hd).resolve_right ?_
    rintro ⟨k, hk⟩
    rw [colors_slot hk] at hp
    cases hp
  rcases final_eq_machine hcd with rfl | ⟨hu, rfl⟩ | ⟨hdc, hdne⟩
  · rcases final_eq_machine (hfinal.trans hcd) with rfl | ⟨hu, rfl⟩ | ⟨hrc, hrne⟩
    · exact absurd rfl hne
    · exact eq_restore_of_defs hx (C.unused c hu) hd
    · obtain ⟨hproper, hlive⟩ := hr.live_of_color hrc hrne
      have hd' : .machine c ∈ defs x := by
        grind [defs_of_view, C.stage.machine_free]
      refine hcopy (eq_mov_of_live hx hnext hd' hproper hlive hne ?_)
      rw [reg_of_color hrc, reg_of_none (C.colors_machine c)]
  · rcases final_eq_machine (hfinal.trans hcd) with rfl | ⟨_, rfl⟩ | ⟨hrc, _⟩
    · exact eq_save_of_defs hx hd
    · exact absurd rfl hne
    · exact absurd hu (C.unusedColor hrc)
  · rcases final_eq_machine (hfinal.trans hcd) with rfl | ⟨hu, _⟩ | ⟨hrc, hrne⟩
    · rcases hr.live_of_colored hdc hx hnext with hlive | hi
      · grind [eq_mov_of_live, proper_machine, reg_of_color, reg_of_none, C.colors_machine]
      · obtain ⟨q, rfl⟩ := machine_of_defs hx hi hd
        rw [C.colors_machine q] at hdc
        cases hdc
    · exact absurd hu (C.unusedColor hdc)
    · grind [hr.live_of_color, eq_mov_of_live, reg_of_color]

/-- With slots seen as registers, the code under its final registers tracks what matters. -/
theorem recolors (C : Closing) (globals : Std.TreeMap Name Int64) :
    Recolors (imageOf globals (C.code.map C.view)).labels (C.code.map C.view) C.f.final
      C.Tracks where
  machine := C.final_machine
  rip _ := C.final_rip
  rsp _ := .rsp
  rbp _ := .rbp
  used hy hr := by
    rw [getElem?_map, Option.map_eq_some_iff] at hy
    obtain ⟨x, hx, rfl⟩ := hy
    exact tracks_view hx hr
  kept hy hnext hr hdefs := by
    rw [getElem?_map, Option.map_eq_some_iff] at hy
    obtain ⟨x, hx, rfl⟩ := hy
    exact tracks_kept hx (next_of_view hnext) hr hdefs
  apart hy hnext hd hr hne hfinal := by
    rw [getElem?_map, Option.map_eq_some_iff] at hy
    obtain ⟨x, hx, rfl⟩ := hy
    exact eq_mov_of_final hx (next_of_view hnext) hd hr hne hfinal

end Closing

end X64Backend.Alloc
