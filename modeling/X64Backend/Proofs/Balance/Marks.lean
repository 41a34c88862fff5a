import X64Backend.Proofs.Generated

/-! # What code does to the stack

The instructions of a function that push and call, that take words off the stack pointer and
give them back, and its labels and jumps, without what stands between them. Both allocators
keep all of them in their order.
-/

namespace X64Backend.Balance

open Asm List

/-- What an instruction does to the stack, or that it is a label or a jump. What belongs to a
function's frame is a mark of its own. -/
inductive Mark
  | control
  | push
  | take (bytes : Int64)
  | give (bytes : Int64)
  | call
  | frame
  deriving DecidableEq

/-- Whether a register is the stack pointer or the frame pointer. -/
def isPointer : Reg → Bool
  | .machine .rsp | .machine .rbp => true
  | _ => false

/-- What an operation on a pointer does. -/
def shift : Reg → Arith → Operand → Mark
  | .rsp, .sub, .const (.imm v) => .take v
  | .rsp, .add, .const (.imm v) => .give v
  | _, _, _ => .frame

/-- The mark of an instruction, if it has one. -/
def mark? : Instr → Option Mark
  | .label _ | .jump _ _ => some .control
  | .push _ => some .push
  | .call _ => some .call
  | .arith op (.reg d) s => if isPointer d then some (shift d op s) else none
  | .mov (.reg d) _ => if isPointer d then some .frame else none
  | .popRbp | .ret => some .frame
  | _ => none

/-- The marks of code. -/
def marks (code : List Instr) : List Mark := code.filterMap mark?

@[simp] theorem marks_nil : marks [] = [] := rfl

@[simp] theorem marks_append (a b : List Instr) : marks (a ++ b) = marks a ++ marks b :=
  filterMap_append

@[simp] theorem marks_cons (x : Instr) (code : List Instr) :
    marks (x :: code) = (mark? x).toList ++ marks code := by
  rw [marks, filterMap_cons]
  cases mark? x <;> rfl

theorem marks_eq_nil {code : List Instr} (h : ∀ x ∈ code, mark? x = none) : marks code = [] :=
  filterMap_eq_nil_iff.mpr h

theorem marks_flatten_of_forall₂ {xs : List Instr} {codes : List (List Instr)}
    (h : List.Forall₂ (fun x code => marks code = (mark? x).toList) xs codes) :
    marks codes.flatten = marks xs := by
  induction h with
  | nil => rfl
  | cons hcode _ ih => rw [flatten_cons, marks_append, hcode, ih, marks_cons]

theorem isPointer_iff {r : Reg} : isPointer r = true ↔ r = .rsp ∨ r = .rbp := by
  cases r with
  | machine q => cases q <;> simp [isPointer]
  | rip | abstract n => simp [isPointer]

theorem not_isPointer {r : Reg} (hsp : r ≠ .rsp) (hbp : r ≠ .rbp) : isPointer r = false := by
  rw [← Bool.not_eq_true, isPointer_iff]
  exact not_or.mpr ⟨hsp, hbp⟩

end X64Backend.Balance

namespace X64Backend.Alloc

open Asm Dataflow Balance List

section

variable {slots : Slots} {x y : Instr} {code : List Instr}

theorem isPointer_of_target {r t : Reg} (hrsp : slots[Reg.rsp.name]? = none)
    (hrbp : slots[Reg.rbp.name]? = none) (h : Target slots (.reg r) (.reg t)) :
    r = t ∨ isPointer r = false ∧ isPointer t = false := by
  cases h with
  | kept h => exact .inl rfl
  | moved h ht =>
    refine .inr ⟨not_isPointer ?_ ?_, not_isPointer ht.1 ht.2⟩
    · rintro rfl
      exact h hrsp
    · rintro rfl
      exact h hrbp

theorem isPointer_of_slot {r : Reg} {m : Mem} (hrsp : slots[Reg.rsp.name]? = none)
    (hrbp : slots[Reg.rbp.name]? = none) (h : Target slots (.reg r) (.mem m)) :
    isPointer r = false := by
  cases h with
  | slot h =>
    refine not_isPointer ?_ ?_
    · rintro rfl
      exact h hrsp
    · rintro rfl
      exact h hrbp

theorem shift_of_sameConst (r : Reg) (op : Arith) {s s' : Operand} (h : SameConst s s') :
    shift r op s' = shift r op s := by
  by_cases hconst : ∃ c, s = .const c
  · obtain ⟨c, rfl⟩ := hconst
    rw [(h c).mp rfl]
  · have hframe : ∀ {a : Operand}, (∀ c, a ≠ .const c) → shift r op a = .frame := by
      intro a ha
      unfold shift
      split
      next v => exact absurd rfl (ha (.imm v))
      next v => exact absurd rfl (ha (.imm v))
      next => rfl
    rw [hframe fun c hc => hconst ⟨c, hc⟩, hframe fun c hc => hconst ⟨c, (h c).mpr hc⟩]

/-- An instruction with other operands has the same mark, if pointers have no slots. -/
theorem Alters.mark?_eq (hrsp : slots[Reg.rsp.name]? = none) (hrbp : slots[Reg.rbp.name]? = none)
    (h : Alters slots x y) : mark? y = mark? x := by
  cases h with
  | @mov d d' s s' hd =>
    cases d with
    | reg r =>
      cases d' with
      | reg t =>
        rcases isPointer_of_target hrsp hrbp hd with rfl | ⟨hr, ht⟩
        · rfl
        · simp [mark?, hr, ht]
      | mem m => simp [mark?, isPointer_of_slot hrsp hrbp hd]
      | const c | absent => cases hd
    | mem m | const c | absent =>
      cases hd
      rfl
  | @arith op d d' s s' hd hs =>
    cases d with
    | reg r =>
      cases d' with
      | reg t =>
        rcases isPointer_of_target hrsp hrbp hd with rfl | ⟨hr, ht⟩
        · simp [mark?, shift_of_sameConst r op hs]
        · simp [mark?, hr, ht]
      | mem m => simp [mark?, isPointer_of_slot hrsp hrbp hd]
      | const c | absent => cases hd
    | mem m | const c | absent =>
      cases hd
      rfl
  | _ => rfl

theorem Around.marks_eq (hrsp : slots[Reg.rsp.name]? = none) (hrbp : slots[Reg.rbp.name]? = none)
    (h : Around slots x code) : marks code = (mark? x).toList := by
  obtain ⟨loads, y, stores, rfl, hloads, hstores, h⟩ := h
  have hbefore : marks loads = [] := by
    refine marks_eq_nil fun z hz => ?_
    obtain ⟨t, a, ht, rfl⟩ := hloads z hz
    simp [mark?, not_isPointer ht.1 ht.2]
  have hbehind : marks stores = [] := by
    refine marks_eq_nil fun z hz => ?_
    obtain ⟨m, a, rfl⟩ := hstores z hz
    rfl
  rw [marks_append, hbefore, nil_append, marks_cons, hbehind, append_nil,
    h.mark?_eq hrsp hrbp]

end

/-! ## The last round -/

/-- A finish that leaves the pointers alone. -/
structure Finish.Spares (f : Finish) : Prop where
  rsp : f.reg .rsp = .rsp
  rbp : f.reg .rbp = .rbp
  others {r : Reg} (h : isPointer r = false) : isPointer (f.reg r) = false

section

variable {f : Finish} {x y : Instr}

theorem Finish.Spares.isPointer_reg (hf : f.Spares) (r : Reg) :
    isPointer (f.reg r) = isPointer r ∧ (isPointer r = true → f.reg r = r) := by
  grind [isPointer, hf.others, isPointer_iff, hf.rsp, hf.rbp]

theorem sameConst_mapRegs (f : Reg → Reg) (a : Operand) : SameConst a (a.mapRegs f) := by
  intro c
  cases a <;> simp [Operand.mapRegs]

theorem Finish.Spares.mark?_mapRegs (hf : f.Spares) (x : Instr) :
    mark? (x.mapRegs f.reg) = mark? x := by
  cases x with
  | mov d s =>
    cases d with
    | reg r => simp [Instr.mapRegs, Operand.mapRegs, mark?, (hf.isPointer_reg r).1]
    | _ => rfl
  | arith op d s =>
    cases d with
    | reg r =>
      obtain ⟨hpointer, hsame⟩ := hf.isPointer_reg r
      have hmap : (Instr.arith op (.reg r) s).mapRegs f.reg =
          .arith op (.reg (f.reg r)) (s.mapRegs f.reg) := rfl
      simp only [hmap, mark?, hpointer]
      split
      next hr => rw [hsame hr, shift_of_sameConst r op (sameConst_mapRegs f.reg s)]
      next => rfl
    | _ => rfl
  | _ => rfl

theorem sameConst_mapMem {f : Mem → Except Defect Mem} {a b : Operand} (h : a.mapMem f = .ok b) :
    SameConst a b ∧ ∀ r, a = .reg r ↔ b = .reg r := by
  cases a with
  | mem m =>
    obtain ⟨m', _, h⟩ := bind_eq_ok.mp h
    cases pure_eq_ok.mp h
    exact ⟨sameConst_mem m m', fun r => by simp⟩
  | reg r | const c | absent =>
    cases h
    exact ⟨.refl _, fun _ => .rfl⟩

/-- Words of memory play no part in marks. -/
theorem mark?_mapMem {f : Mem → Except Defect Mem} (h : x.mapMem f = .ok y) :
    mark? y = mark? x := by
  cases x <;> simp only [Instr.mapMem, bind_eq_ok, pure_eq_ok, Except.ok.injEq] at h
  case mov d s =>
    obtain ⟨d', hd, s', _, rfl⟩ := h
    obtain ⟨_, hreg⟩ := sameConst_mapMem hd
    cases d with
    | reg r =>
      obtain rfl := (hreg r).mp rfl
      rfl
    | _ =>
      cases d' with
      | reg r => cases (hreg r).mpr rfl
      | _ => rfl
  case arith op d s =>
    obtain ⟨d', hd, s', hs, rfl⟩ := h
    obtain ⟨_, hreg⟩ := sameConst_mapMem hd
    cases d with
    | reg r =>
      obtain rfl := (hreg r).mp rfl
      simp only [mark?, shift_of_sameConst r op (sameConst_mapMem hs).1]
    | _ =>
      cases d' with
      | reg r => cases (hreg r).mpr rfl
      | _ => rfl
  case cmp =>
    obtain ⟨_, _, _, _, rfl⟩ := h
    rfl
  case lea | call | imul | imul3 | idiv | neg | shl | push =>
    obtain ⟨_, _, rfl⟩ := h
    rfl
  all_goals
    subst h
    rfl

theorem mark?_withoutSelfCopy (h : mark? x ≠ some .frame) :
    mark? (Finish.withoutSelfCopy x) = mark? x := by
  unfold Finish.withoutSelfCopy
  split
  next d s =>
    split
    next =>
      cases hd : isPointer d with
      | true => exact absurd (by simp [mark?, hd]) h
      | false => simp [mark?, hd]
    next => rfl
  next => rfl

theorem Finish.Spares.mark?_instr (hf : f.Spares) (hx : mark? x ≠ some .frame)
    (h : f.instr x = .ok y) : mark? y = mark? x := by
  obtain ⟨z, hz, h⟩ := bind_eq_ok.mp h
  obtain ⟨_, _, h⟩ := bind_eq_ok.mp h
  cases pure_eq_ok.mp h
  have hmark : mark? z = mark? x := by rw [mark?_mapMem hz, hf.mark?_mapRegs]
  rw [mark?_withoutSelfCopy (by rwa [hmark]), hmark]

/-- Finished code has the marks that the code had. -/
theorem Finish.Spares.marks_code (hf : f.Spares) {xs ys : List Instr} (hxs : .frame ∉ marks xs)
    (h : f.code xs = .ok ys) : marks ys = marks xs := by
  have hframe : ∀ x ∈ xs, mark? x ≠ some .frame := fun x hx hmark =>
    hxs (mem_filterMap.mpr ⟨x, hx, hmark⟩)
  have hkept : marks (xs.filter fun x => !f.isDropped x) = marks xs := by
    clear h hxs
    induction xs with
    | nil => rfl
    | cons x rest ih =>
      obtain ⟨hx, hrest⟩ := forall_mem_cons.mp hframe
      rw [filter_cons]
      split
      next => rw [marks_cons, marks_cons, ih hrest]
      next hdropped =>
        -- what is dropped is a move, and no move of the frame
        cases x with
        | mov d s =>
          have hnone : mark? (.mov d s) = none := by
            cases d with
            | reg r =>
              cases hr : isPointer r with
              | true => exact absurd (by simp [mark?, hr]) hx
              | false => simp [mark?, hr]
            | _ => rfl
          rw [marks_cons, hnone, ih hrest]
          rfl
        | _ => exact absurd rfl hdropped
  rw [← hkept]
  have hforall := mapM_eq_ok.mp h
  have hframe' : ∀ x ∈ xs.filter fun x => !f.isDropped x, mark? x ≠ some .frame := fun x hx =>
    hframe x (mem_filter.mp hx).1
  clear h hkept
  generalize (xs.filter fun x => !f.isDropped x) = kept at hforall hframe'
  induction hforall with
  | nil => rfl
  | cons hx _ ih =>
    grind [marks_cons, hf.mark?_instr]

end

/-! ## All rounds -/

section

variable {B : Shape} {slots slots' : Slots} {supply supply' : Supply} {code code' : List Instr}
  {returns : Bool} {round : Round}

theorem marks_spilled {new : Slots} (hrsp : new[Reg.rsp.name]? = none)
    (hrbp : new[Reg.rbp.name]? = none)
    (h : (Spilling.code new code).run supply = .ok (code', supply')) :
    marks code' = marks code := by
  obtain ⟨blocks, rfl, hblocks⟩ := Spilling.exists_around h
  exact marks_flatten_of_forall₂ (hblocks.imp fun _ _ h => h.marks_eq hrsp hrbp)

theorem Spills.marks_eq (h : Spills returns slots supply code slots' supply' code')
    (hbetween : Between B slots supply.issued code) : marks code' = marks code := by
  induction h with
  | none => rfl
  | @round slots _ supply supply₁ _ code code₁ _ round hround hspilled hcode _ ih =>
    obtain ⟨hcan, hnodup⟩ := hbetween.canSpill hround
    have hext := addSlots_extends hbetween.dense hnodup fun r hr => (hcan r hr).1.2.2.1
    have hpointers : KeepsPointers (between B slots supply.issued fun _ => True) _ :=
      hcan.keepsPointers hext
    obtain ⟨code₂, supply₂, hrun, hnext⟩ := hbetween.spill hcan hnodup
    have heq := Except.ok.inj (hrun.symm.trans hcode)
    obtain ⟨rfl, rfl⟩ := Prod.mk.inj heq
    rw [ih hnext, marks_spilled (hpointers.free .rsp) (hpointers.free .rbp) hcode]

theorem Between.spares (h : Between B slots supply.issued code)
    (hround : Round.ofCode returns code = .ok round) (hspilled : round.spilled = [])
    {f : Finish} {colors : List (Name × MachineReg)} (hcolors : round.colors = .ok colors)
    (hf : f.colors = .ofList colors) : f.Spares := by
  obtain ⟨live, hfinds⟩ := Round.ofCode_finds hround
  obtain ⟨colors', hok, htable, _⟩ := hfinds.colors_spec hspilled
  rw [hcolors] at hok
  obtain rfl := Except.ok.inj hok
  have htells : round.Tells live f.colors := by rwa [hf]
  have hmachine := hfinds.reg_machine htells
  refine ⟨hmachine .rsp, hmachine .rbp, ?_⟩
  intro r hr
  unfold Finish.reg
  cases hc : f.colors[r.name]? with
  | none => exact hr
  | some c =>
    obtain ⟨_, _, _, _, hpalette⟩ := h.colored hfinds hspilled htells hc
    refine not_isPointer ?_ ?_
    · intro heq
      obtain rfl := Reg.machine.inj heq
      revert hpalette
      decide
    · intro heq
      obtain rfl := Reg.machine.inj heq
      revert hpalette
      decide

/-- Allocation in rounds keeps the marks of code. -/
theorem marks_rounds {fuel done : Nat} {result : Allocated}
    (h : Between B slots supply.issued code) (hframe : .frame ∉ marks code)
    (hresult : rounds returns fuel done slots supply code = .ok result) :
    marks result.code = marks code := by
  obtain ⟨slots', supply', code', round, n, hspills, hbetween, hround, hspilled, hlast⟩ :=
    exists_between_lastRound h hresult
  have hmarks := hspills.marks_eq h
  obtain ⟨colors, hcolors, hlast⟩ := bind_eq_ok.mp hlast
  obtain ⟨out, hout, hlast⟩ := bind_eq_ok.mp hlast
  obtain rfl := pure_eq_ok.mp hlast
  have hspares := hbetween.spares hround hspilled hcolors (f := {
    colors := .ofList colors
    unused := Finish.unusedOf (colors.map Prod.snd)
    slots := slots' }) rfl
  rw [hspares.marks_code (by rwa [hmarks]) hout, hmarks]

theorem marks_keepCalleeSaved (code : List Instr) : marks (keepCalleeSaved code) = marks code := by
  have hsaves : ∀ {f : MachineReg → Instr}, (∀ r ∈ MachineReg.calleeSaved, mark? (f r) = none) →
      marks (MachineReg.calleeSaved.map f) = [] := by
    grind [marks_eq_nil]
  unfold keepCalleeSaved
  simp only [marks_append]
  rw [hsaves (by decide), hsaves (by decide)]
  simp [mark?]

end

theorem marks_allocateOnStack {B : Shape} {issued : Nat} {supply : Supply} {code : List Instr}
    {result : Allocated} (h : (between B ∅ issued fun _ => True).Code code)
    (hresult : allocateOnStack supply code = .ok result) : marks result.code = marks code := by
  have hscratch := scratch_slotsOf h
  obtain ⟨codes, hcodes, hresult⟩ := bind_eq_ok.mp hresult
  cases pure_eq_ok.mp hresult
  apply marks_flatten_of_forall₂
  apply (mapM_eq_ok.mp hcodes).imp
  intro x out hx
  exact (Stack.instr_around hx).marks_eq (hscratch.free .rsp) (hscratch.free .rbp)

end X64Backend.Alloc

namespace X64Backend.Generate

open Asm Alloc Balance

/-- Both allocators keep the marks of code. -/
theorem marks_allocated {B : Shape} {allocator : Allocator} {returns : Bool} {supply : Supply}
    {code : List Instr} {result : Allocated}
    (hcode : (between B ∅ supply.issued (¬ SavedName ·)).Code code) (hframe : .frame ∉ marks code)
    (hresult : allocated allocator returns supply code = .ok result) :
    marks result.code = marks code := by
  cases allocator with
  | stack =>
    exact marks_allocateOnStack
      (hcode.mono (between_le (fun _ _ => trivial) (Nat.le_refl _))) hresult
  | coalescing =>
    have hmarks := marks_keepCalleeSaved code
    rw [← hmarks] at hframe ⊢
    exact marks_rounds (between_keepCalleeSaved hcode) hframe hresult

end X64Backend.Generate
