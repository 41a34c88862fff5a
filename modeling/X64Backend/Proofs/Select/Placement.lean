import X64Backend.Meaning.Run
import X64Backend.Proofs.Containment
import X64Backend.Proofs.Machine.Blocks
import X64Backend.Proofs.Select.Numbering
import X64Backend.Proofs.Select.Statements

/-! # Selected bodies in a program

The code of a body's statements stands in a program block after block, with the label that
returns jump to behind it. Labels lead to the blocks of the statements that define them, and
a block is left behind its end or at the label that it jumps to.
-/

namespace X64Backend.Select

open Asm Code Machine Meaning List

variable {func l : Name} {body : List NodeStmt} {codes : List (List Instr)} {own : Owner}

/-- The labels that a body defines. -/
def bodyLabels (body : List NodeStmt) : List Name := body.flatMap fun s => stmtLabels s.plain

/-- A body without calls that selection takes: what it shares is the same wherever it is
used, its operators are those of the language, its names are in order, and every label that
it goes to is defined once. -/
structure Selectable (func : Name) (body : List NodeStmt) : Prop where
  numbered : ∃ num : Numbering, num.Unique ∧ ∀ s ∈ body, s.Follows num
  valid : ∀ s ∈ body, s.plain.Valid
  named : ∀ s ∈ body, StmtNamed s.plain
  noCall : ∀ s ∈ body, ∀ f args result, s.plain ≠ .call f args result
  nodup : (bodyLabels body).Nodup
  epilogue : epilogueLabel func ∉ bodyLabels body
  defined : ∀ s ∈ body, ∀ l ∈ stmtTargets s.plain, l ∈ bodyLabels body

/-- Selection gives every statement its code. -/
theorem exists_codes (hnumbered : ∃ num : Numbering, num.Unique ∧ ∀ s ∈ body, s.Follows num)
    (hvalid : ∀ s ∈ body, s.plain.Valid) :
    ∃ codes memo, (body.mapM (coverStmt func)).run.run .empty = (.ok codes, memo) ∧
      ∀ P, Rules P → ∃ own,
        List.Forall₂ (fun s code => StmtCode P own func s.plain code) body codes := by
  obtain ⟨num, hunique, hfollows⟩ := hnumbered
  have hensures (P : Owner → Expr → Tile Reg → Prop) (rules : Rules P) :
      Ensures num P func True (fun _ => none) (body.mapM (coverStmt func)) fun own codes =>
        List.Forall₂ (IsCode num P func own) body codes :=
    mapM_coverStmt_ensures rules (hunique.shares P) hfollows fun _ => hvalid
  cases hrun : (body.mapM (coverStmt func)).run.run .empty with
  | mk result memo =>
    cases result with
    | error d =>
      have herror := hensures Straight straight_rules .empty (Memo.fits_empty num _ func)
      rw [hrun] at herror
      exact absurd trivial herror
    | ok codes =>
      refine ⟨codes, memo, rfl, ?_⟩
      intro P rules
      have hok := hensures P rules .empty (Memo.fits_empty num _ func)
      rw [hrun] at hok
      obtain ⟨own, _, _, hcodes⟩ := hok
      refine ⟨own, ?_⟩
      -- the statement that the code was selected for is the one with the same number
      have hall := (forall₂_and_left _ _).mpr ⟨hfollows, hcodes⟩
      refine hall.imp ?_
      rintro s code ⟨hs, plain, hplain, hcode⟩
      rwa [hunique.stmt hs.1 hplain]

theorem run_coverBody {memo : Memo}
    (h : (body.mapM (coverStmt func)).run.run .empty = (.ok codes, memo)) :
    (coverBody func body).run.run .empty =
      (.ok (codes.flatten ++ [.label (epilogueLabel func)]), memo) := by
  rw [coverBody, run_bind, h]
  rfl

theorem labels_flatten
    (h : List.Forall₂ (fun s code => StmtCode Straight own func s.plain code) body codes) :
    labels codes.flatten = bodyLabels body := by
  induction h with
  | nil => rfl
  | cons hcode _ ih => simp [bodyLabels, hcode.control.1, ih]

theorem mem_bodyLabels : l ∈ bodyLabels body ↔ .label l ∈ body.map NodeStmt.plain := by
  have hone : ∀ s : Stmt Expr, l ∈ stmtLabels s ↔ s = .label l := by
    intro s
    cases s <;> simp [stmtLabels, eq_comm]
  simp only [bodyLabels, mem_flatMap, hone, mem_map]

/-- The code of a body goes where its statements go, and where its returns do. -/
theorem mem_targets_flatten
    (h : List.Forall₂ (fun s code => StmtCode Straight own func s.plain code) body codes) :
    l ∈ targets codes.flatten ↔
      (∃ s ∈ body, l ∈ stmtTargets s.plain) ∨
        l = epilogueLabel func ∧ ∃ s ∈ body, ∃ v, s.plain = .ret v := by
  induction h with
  | nil => simp
  | cons hcode _ ih =>
    grind [flatten_cons, targets_append, hcode.control.2]

theorem body_of_labelPosition? {body : List (Stmt Expr)} {p : Nat}
    (h : labelPosition? body l = some p) : body[p]? = some (.label l) := by
  unfold labelPosition? at h
  obtain ⟨⟨s, i⟩, hfind, rfl⟩ := Option.map_eq_some_iff.mp h
  have hs := find?_some hfind
  have hmem := mem_of_find?_eq_some hfind
  rw [mem_reverse, mem_zipIdx_iff_getElem?] at hmem
  simp only [beq_iff_eq] at hs
  rw [hmem, hs]

theorem exists_labelPosition? {body : List (Stmt Expr)} (h : .label l ∈ body) :
    ∃ p, labelPosition? body l = some p := by
  obtain ⟨p, hp⟩ := mem_iff_getElem?.mp h
  rw [← Option.isSome_iff_exists, labelPosition?, Option.isSome_map, find?_isSome]
  refine ⟨(.label l, p), ?_, by simp⟩
  rw [mem_reverse, mem_zipIdx_iff_getElem?]
  exact hp

/-- Code stands in a program from its first position on, under its own table of labels. -/
structure Loads (img : Image) (code : List Instr) : Prop where
  code_eq : img.code = code.toArray
  labels_eq : img.labels = labelTable code

/-- Machines whose whole memory belongs to the program, every failure of which matters. -/
def plainSetting (img : Image) : Setting where
  img := img
  limit := stackTop
  ok _ _ := True
  strict := True
  allows _ _ _ _ _ := trivial
  stackTop_le _ := Int64.le_refl _

/-- The code of a body's statements, block after block, loaded with the label that returns
jump to behind it. -/
structure Placed (func : Name) (body : List NodeStmt) (codes : List (List Instr)) (img : Image) :
    Prop where
  loads : Loads img (codes.flatten ++ [.label (epilogueLabel func)])
  blocks : ∃ own, List.Forall₂
    (fun s code => StmtCode (plainSetting img).IsTile own func s.plain code) body codes
  straight : ∃ own, List.Forall₂ (fun s code => StmtCode Straight own func s.plain code) body codes

namespace Placed

variable {func : Name} {body : List NodeStmt} {codes : List (List Instr)} {img : Image}
variable {p : Nat}

variable (h : Placed func body codes img)

include h

theorem length_eq : codes.length = body.length := by
  obtain ⟨own, hblocks⟩ := h.blocks
  exact hblocks.length_eq.symm

theorem holds {code : List Instr} (hp : codes[p]? = some code) :
    img.Holds (offset codes p) code := by
  intro j x hx
  rw [h.loads.code_eq, getElem?_toArray, flatten_eq_of_getElem? hp, offset, append_assoc,
    getElem?_append_right (Nat.le_add_right _ _), Nat.add_sub_cancel_left,
    append_assoc, getElem?_append_left (List.getElem?_eq_some_iff.mp hx).1, hx]

/-- Every statement has its block. -/
theorem block {s : NodeStmt} (hp : body[p]? = some s) :
    ∃ own code, codes[p]? = some code ∧
      StmtCode (plainSetting img).IsTile own func s.plain code := by
  obtain ⟨own, hblocks⟩ := h.blocks
  obtain ⟨code, hcode, hstmt⟩ := getElem?_of_forall₂ hblocks hp
  exact ⟨own, code, hcode, hstmt⟩

omit h

theorem offset_succ {code : List Instr} (hp : codes[p]? = some code) :
    offset codes (p + 1) = offset codes p + code.length := by
  rw [offset, offset, take_add_one, hp]
  simp

include h

theorem labels_getElem? (hbody : Selectable func body) {k : Nat}
    {l : Name} (hk : (codes.flatten ++ [.label (epilogueLabel func)])[k]? = some (.label l)) :
    img.labels[l]? = some k := by
  obtain ⟨own, hstraight⟩ := h.straight
  rw [h.loads.labels_eq, labelTable_getElem?]
  apply position?_eq_some_of_nodup _ hk
  rw [labels_append, labels_flatten hstraight, nodup_append]
  refine ⟨hbody.nodup, by simp [Instr.label?], ?_⟩
  intro a ha b hb heq
  obtain rfl : b = epilogueLabel func := by simpa [Instr.label?] using hb
  exact hbody.epilogue (heq ▸ ha)

/-- A label leads to the block of the statement that defines it. -/
theorem labels_of_labelPosition? (hbody : Selectable func body)
    {l : Name} (hp : labelPosition? (body.map NodeStmt.plain) l = some p) :
    img.labels[l]? = some (offset codes p) := by
  have hstmt := body_of_labelPosition? hp
  rw [getElem?_map, Option.map_eq_some_iff] at hstmt
  obtain ⟨s, hs, hplain⟩ := hstmt
  obtain ⟨own, code, hcode, hstmt⟩ := h.block hs
  rw [hplain] at hstmt
  cases hstmt
  apply h.labels_getElem? hbody
  have hhead := (h.holds hcode).head
  rwa [h.loads.code_eq, getElem?_toArray] at hhead

theorem labels_epilogue (hbody : Selectable func body) :
    img.labels[epilogueLabel func]? = some codes.flatten.length := by
  apply h.labels_getElem? hbody
  simp

omit h

end Placed

/-- Where a block has been left: behind it, or at the label that it jumped to. -/
theorem Setting.Ends.within {S : Setting} {i k : Nat} {code : List Instr} {s s' : State}
    {exit : Option Name} (h : S.Ends code s exit s') (hne : code ≠ []) (hip : s.ip = i)
    (hcode : S.img.Holds i code) (hexit : ∀ l ∈ exit, S.img.labels[l]? = some k) :
    ∃ n ip steps, S.img.Within i (i + code.length) (n + 1) s { s' with ip, steps } ∧
      (exit = none → ip = (i + code.length : Nat)) ∧ (exit ≠ none → ip = k) := by
  cases h with
  | falls h =>
    cases code with
    | nil => exact absurd rfl hne
    | cons x rest =>
      have hwithin := h.within hcode hip
      refine ⟨rest.length, s'.ip, s'.steps, hwithin, ?_, fun hne => absurd rfl hne⟩
      intro _
      rw [h.ip_eq, hip]
      simp
  | @jumps code c l s s' h hc =>
    have hwithin := h.within hcode.left hip
    have hip' : s'.ip = (i + code.length : Nat) := by
      rw [h.ip_eq, hip]
      simp
    have hexec : S.img.exec s'.advance (.jump c l) = .ok { s'.advance with ip := k } := by
      have hc' : c.holds s'.advance.left s'.advance.right = .ok true := hc
      simp only [Image.exec, hc', Image.goto, hexit l rfl]
    refine ⟨code.length, k, s'.steps + 1, ?_, (absurd · (Option.some_ne_none l)), fun _ => rfl⟩
    refine (hwithin.mono (Nat.le_refl i) (by simp)).trans ?_
    exact .succ (by omega) (by simp; omega) (Image.step_ok hcode.right.head hip' hexec) (.zero _)
  | @passes code c l s s' h hc =>
    have hwithin := h.within hcode.left hip
    have hip' : s'.ip = (i + code.length : Nat) := by
      rw [h.ip_eq, hip]
      simp
    have hexec : S.img.exec s'.advance (.jump c l) = .ok s'.advance := by
      have hc' : c.holds s'.advance.left s'.advance.right = .ok false := hc
      simp only [Image.exec, hc']
    refine ⟨code.length, s'.ip + 1, s'.steps + 1, ?_, ?_, fun hne => absurd rfl hne⟩
    · refine (hwithin.mono (Nat.le_refl i) (by simp)).trans ?_
      exact .succ (by omega) (by simp; omega) (Image.step_ok hcode.right.head hip' hexec) (.zero _)
    · intro _
      rw [hip']
      simp
      omega

theorem StmtCode.ne_nil {P : Owner → Expr → Tile Reg → Prop} {stmt : Stmt Expr} {code : List Instr}
    (h : StmtCode P own func stmt code) : code ≠ [] := by
  cases h <;> simp

end X64Backend.Select
