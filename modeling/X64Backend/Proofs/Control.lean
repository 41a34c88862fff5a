import X64Backend.Proofs.Alloc.Rewriting
import X64Backend.Proofs.Layout
import X64Backend.Proofs.Select.Consisting
import X64Backend.Proofs.Select.Induction
import X64Backend.Generate

/-! # Labels and jumps through the passes

The labels and jumps of code, without what stands between them. Selection gives a
statement its own label or jump and no other, both allocators keep all of them in their
order, and a frame adds the function's label in front.
-/

namespace X64Backend.Asm

/-- Whether an instruction is a label or a jump. -/
@[simp] def Instr.isControl : Instr → Bool
  | .label _ | .jump _ _ => true
  | _ => false

/-- The labels and jumps of code. -/
def skeleton (code : List Instr) : List Instr := code.filter Instr.isControl

@[simp] theorem skeleton_nil : skeleton [] = [] := rfl

@[simp] theorem skeleton_append (a b : List Instr) : skeleton (a ++ b) = skeleton a ++ skeleton b :=
  List.filter_append a b

@[simp] theorem skeleton_cons (x : Instr) (code : List Instr) :
    skeleton (x :: code) = if x.isControl then x :: skeleton code else skeleton code :=
  List.filter_cons

theorem skeleton_eq_nil {code : List Instr} :
    skeleton code = [] ↔ ∀ x ∈ code, x.isControl = false := by
  rw [skeleton, List.filter_eq_nil_iff]
  simp only [Bool.not_eq_true]

theorem labels_skeleton (code : List Instr) : labels (skeleton code) = labels code := by
  induction code with
  | nil => rfl
  | cons x rest ih => cases x <;> simp_all [Instr.label?]

theorem targets_skeleton (code : List Instr) : targets (skeleton code) = targets code := by
  induction code with
  | nil => rfl
  | cons x rest ih => cases x <;> simp_all [Tidy.target?]

/-- Code with the same labels and jumps has the same labels. -/
theorem labels_eq_of_skeleton {a b : List Instr} (h : skeleton a = skeleton b) :
    labels a = labels b := by
  rw [← labels_skeleton, h, labels_skeleton]

theorem targets_eq_of_skeleton {a b : List Instr} (h : skeleton a = skeleton b) :
    targets a = targets b := by
  rw [← targets_skeleton, h, targets_skeleton]

end X64Backend.Asm

namespace X64Backend.Select

open Asm Code List

variable {own : Owner} {func : Name} {code : List Instr}

/-- Tiles without labels and jumps. -/
def Straight (_ : Owner) (_ : Expr) (t : Tile Reg) : Prop := skeleton t.code = []

theorem straight_eq : Straight = Consists fun x => x.isControl = false := by
  funext own e t
  exact propext skeleton_eq_nil

theorem computing_not_isControl : Computing fun x => x.isControl = false where
  comment _ := rfl
  movAbs _ _ := rfl
  mov _ _ := rfl
  lea _ _ := rfl
  cmp _ _ := rfl
  set _ := rfl
  arith _ _ _ := rfl
  imul _ _ := rfl
  imul3 _ _ _ := rfl
  shl _ _ := rfl
  dividend _ := rfl
  cqo := rfl
  idiv _ := rfl

theorem straight_rules : Rules Straight := by
  rw [straight_eq]
  exact computing_not_isControl.rules

theorem skeleton_callCode (target : Operand) (args : List Operand) (result : Option Name) :
    skeleton (callCode target args result) = [] := by
  rw [skeleton_eq_nil]
  intro x hx
  simp only [callCode, passArgs, mem_append, mem_reverse, mem_map,
    mem_singleton] at hx
  rcases hx with (((hx | ⟨_, _, rfl⟩ | ⟨_, _, rfl⟩) | rfl) | hx) | hx
  · split at hx <;> simp_all
  · rfl
  · rfl
  · rfl
  · cases result <;> simp_all [Instr.copy]
  · split at hx <;> simp_all

/-- The label that a statement puts into code. -/
def stmtLabels : Stmt Expr → List Name
  | .label l => [l]
  | _ => []

/-- The label that a statement goes to. -/
def stmtTargets : Stmt Expr → List Name
  | .jump l | .branch _ l => [l]
  | _ => []

/-- The code of a statement has the statement's own label and no other. It goes where the
statement goes, and a return to its function's end. -/
theorem StmtCode.control {s : Stmt Expr} (h : StmtCode Straight own func s code) :
    labels code = stmtLabels s ∧ ∀ l, l ∈ targets code ↔
      l ∈ stmtTargets s ∨ l = epilogueLabel func ∧ ∃ v, s = .ret v := by
  have hnil {code : List Instr} : (∀ x ∈ code, x.isControl = false) → skeleton code = [] :=
    skeleton_eq_nil.mpr
  have hplain := computing_not_isControl
  rw [← labels_skeleton, ← targets_skeleton]
  rw [straight_eq] at h
  cases h with
  | move dest h => simp [hnil (h.forall_code hplain), stmtLabels, stmtTargets]
  | store hm h =>
    simp [hnil (hm.forall_code hplain), hnil h.forall_code, stmtLabels, stmtTargets]
  | call result htarget hargs =>
    simp [hnil (htarget.forall_code hplain), hnil (hargs.forall_code hplain), skeleton_callCode,
      stmtLabels, stmtTargets]
  | jump l | label l | leave => simp [stmtLabels, stmtTargets, Instr.label?, Tidy.target?]
  | compare target hop hx hy =>
    simp [hnil hx, hnil hy.forall_code, stmtLabels, stmtTargets, Instr.label?, Tidy.target?]
  | test target hx | ret hx =>
    simp [hnil (hx.forall_code hplain), stmtLabels, stmtTargets, Instr.label?, Tidy.target?]

theorem mem_labels_of_codes {body : List NodeStmt} {codes : List (List Instr)}
    {Q : Stmt Expr → Prop}
    (h : List.Forall₂ (fun _ code => ∃ s, Q s ∧ StmtCode Straight own func s code) body codes) :
    ∀ l ∈ labels codes.flatten, Q (.label l) := by
  induction h with
  | nil => simp
  | cons hcode _ ih =>
    obtain ⟨plain, hplain, hcode⟩ := hcode
    intro l hl
    rw [flatten_cons, labels_append, mem_append, hcode.control.1] at hl
    rcases hl with hl | hl
    · cases plain <;> simp [stmtLabels] at hl
      subst hl
      exact hplain
    · exact ih l hl

/-- The labels that a body's code can have: those of its statements and the one that
returns jump to. -/
theorem labels_coverBody {body : List NodeStmt} {memo : Memo}
    (h : (coverBody func body).run.run .empty = (.ok code, memo)) :
    ∀ l ∈ labels code, l = epilogueLabel func ∨ .label l ∈ body.map NodeStmt.plain := by
  obtain ⟨own, codes, rfl, hcodes⟩ := exists_codes_of_coverBody straight_rules id
    (Q := (· ∈ body.map NodeStmt.plain)) (fun s hs => mem_map_of_mem hs) h
  intro l hl
  rw [labels_append, mem_append] at hl
  rcases hl with hl | hl
  · exact .inr (mem_labels_of_codes hcodes l hl)
  · left
    simpa [Instr.label?, eq_comm] using hl

end X64Backend.Select

namespace X64Backend.Alloc

open Asm List

variable {slots : Slots} {x y : Instr} {code xs : List Instr} {supply : Supply}

theorem Alters.skeleton_eq (h : Alters slots x y) : skeleton [y] = skeleton [x] := by
  cases h <;> rfl

/-- The code for an instruction has the instruction's own label or jump. -/
theorem Around.skeleton_eq (h : Around slots x code) : skeleton code = skeleton [x] := by
  obtain ⟨loads, y, stores, rfl, hloads, hstores, h⟩ := h
  have hbefore : skeleton loads = [] := by
    rw [skeleton_eq_nil]
    intro z hz
    obtain ⟨t, a, _, rfl⟩ := hloads z hz
    rfl
  have hbehind : skeleton stores = [] := by
    rw [skeleton_eq_nil]
    intro z hz
    obtain ⟨m, a, rfl⟩ := hstores z hz
    rfl
  rw [skeleton_append, hbefore, nil_append, ← singleton_append, skeleton_append,
    hbehind, append_nil, h.skeleton_eq]

/-- Code made instruction by instruction has the labels and jumps that the code had, if
each instruction keeps its own. -/
theorem skeleton_flatten_of_forall₂ {codes : List (List Instr)}
    (h : List.Forall₂ (fun x code => skeleton code = skeleton [x]) xs codes) :
    skeleton codes.flatten = skeleton xs := by
  induction h with
  | nil => rfl
  | cons hcode _ ih =>
    rw [flatten_cons, skeleton_append, hcode, ih, ← skeleton_append]
    rfl

/-- Spilled code has the labels and jumps that the code had. -/
theorem Spilling.skeleton_code {supply' : Supply} {out : List Instr}
    (h : (Spilling.code slots xs).run supply = .ok (out, supply')) :
    skeleton out = skeleton xs := by
  obtain ⟨blocks, rfl, hblocks⟩ := exists_around h
  exact skeleton_flatten_of_forall₂ (hblocks.imp fun _ _ h => h.skeleton_eq)

theorem isControl_mapRegs (f : Reg → Reg) (x : Instr) :
    skeleton [x.mapRegs f] = skeleton [x] := by
  cases x <;> rfl

theorem skeleton_mapMem {f : Mem → Except Defect Mem} (h : x.mapMem f = .ok y) :
    skeleton [y] = skeleton [x] := by
  cases x <;> simp only [Instr.mapMem, bind_eq_ok, pure_eq_ok, Except.ok.injEq] at h
  case mov | cmp | arith =>
    obtain ⟨_, _, _, _, rfl⟩ := h
    rfl
  case lea | call | imul | imul3 | idiv | neg | shl | push =>
    obtain ⟨_, _, rfl⟩ := h
    rfl
  all_goals
    subst h
    rfl

theorem Finish.skeleton_instr {f : Finish} (h : f.instr x = .ok y) :
    skeleton [y] = skeleton [x] := by
  obtain ⟨z, hz, h⟩ := bind_eq_ok.mp h
  obtain ⟨_, _, h⟩ := bind_eq_ok.mp h
  cases pure_eq_ok.mp h
  rw [← isControl_mapRegs f.reg x, ← skeleton_mapMem hz]
  unfold withoutSelfCopy
  split
  · split <;> rfl
  · rfl

/-- Finished code has the labels and jumps that the code had. -/
theorem Finish.skeleton_code {f : Finish} {ys : List Instr} (h : f.code xs = .ok ys) :
    skeleton ys = skeleton xs := by
  have hfilter : skeleton (xs.filter fun x => !f.isDropped x) = skeleton xs := by
    rw [skeleton, skeleton, filter_filter]
    apply filter_congr
    intro x _
    cases x <;> simp [Finish.isDropped]
  have hmapM := mapM_eq_ok.mp h
  rw [← hfilter]
  clear h
  generalize (xs.filter fun x => !f.isDropped x) = kept at hmapM
  induction hmapM with
  | nil => rfl
  | cons hx _ ih =>
    rw [← singleton_append, skeleton_append, skeleton_instr hx, ih, ← skeleton_append]
    rfl

theorem skeleton_keepCalleeSaved (code : List Instr) :
    skeleton (keepCalleeSaved code) = skeleton code := by
  have hsave : ∀ f : MachineReg → Instr, (∀ r, ∃ d s, f r = .copy d s) →
      skeleton (MachineReg.calleeSaved.map f) = [] := by
    intro f hf
    rw [skeleton_eq_nil]
    intro x hx
    obtain ⟨r, _, rfl⟩ := mem_map.mp hx
    obtain ⟨d, s, hr⟩ := hf r
    rw [hr]
    rfl
  unfold keepCalleeSaved
  simp only [skeleton_append]
  rw [hsave _ fun r => ⟨_, _, rfl⟩, hsave _ fun r => ⟨_, _, rfl⟩]
  simp

/-- Allocation in rounds keeps labels and jumps. -/
theorem skeleton_rounds {returns : Bool} {fuel done : Nat} {result : Allocated}
    (h : rounds returns fuel done slots supply code = .ok result) :
    skeleton result.code = skeleton code := by
  induction fuel generalizing done slots supply code with
  | zero => cases h
  | succ fuel ih =>
    obtain ⟨round, hround, h⟩ := bind_eq_ok.mp h
    split at h
    next =>
      obtain ⟨colors, hcolors, h⟩ := bind_eq_ok.mp h
      obtain ⟨finished, hfinished, h⟩ := bind_eq_ok.mp h
      cases pure_eq_ok.mp h
      exact Finish.skeleton_code hfinished
    next =>
      obtain ⟨⟨spilled, supply'⟩, hspilled, h⟩ := bind_eq_ok.mp h
      rw [ih h]
      exact Spilling.skeleton_code hspilled

theorem skeleton_allocateOnStack {result : Allocated}
    (h : allocateOnStack supply code = .ok result) : skeleton result.code = skeleton code := by
  obtain ⟨codes, hcodes, h⟩ := bind_eq_ok.mp h
  cases pure_eq_ok.mp h
  apply skeleton_flatten_of_forall₂
  apply (mapM_eq_ok.mp hcodes).imp
  intro x code hx
  exact (Stack.instr_around hx).skeleton_eq

end X64Backend.Alloc

namespace X64Backend.Generate

open Asm

/-- Both allocators keep labels and jumps. -/
theorem skeleton_allocated {allocator : Allocator} {returns : Bool} {supply : Supply}
    {code : List Instr} {result : Alloc.Allocated}
    (h : allocated allocator returns supply code = .ok result) :
    skeleton result.code = skeleton code := by
  cases allocator with
  | stack => exact Alloc.skeleton_allocateOnStack h
  | coalescing =>
    rw [Alloc.skeleton_rounds h]
    exact Alloc.skeleton_keepCalleeSaved code

theorem skeleton_argumentMoves (args : List Name) : skeleton (argumentMoves args) = [] := by
  rw [skeleton_eq_nil]
  intro x hx
  obtain ⟨_, _, rfl⟩ := List.mem_map.mp hx
  rfl

/-- A frame adds the function's label in front of the code's labels and jumps. -/
theorem skeleton_frame (bare : Bool) (func : Name) (args slots : Nat)
    (code : List Instr) :
    skeleton (frame bare func args slots code) = .label func :: skeleton code := by
  have hif : ∀ (b : Bool) (xs : List Instr), skeleton xs = [] →
      skeleton (if b then xs else []) = [] := by
    intro b xs hxs
    cases b <;> simp [hxs]
  have hnote : ∀ what : Bytes, skeleton (if bare then []
      else [.comment (func ++ " " ++ what)]) = [] := by
    intro what
    cases bare <;> rfl
  unfold frame
  simp only [List.cons_append, skeleton_cons, skeleton_append, hnote]
  rw [hif _ _ rfl, hif _ _ rfl, hif _ _ rfl]
  simp

end X64Backend.Generate
