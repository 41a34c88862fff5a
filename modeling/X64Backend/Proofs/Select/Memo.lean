import X64Backend.Proofs.Select.Rules

/-! # What selection remembers

Selection works with a memo whose entries numbers tell apart. A memo fits the rules if
all it holds has their shapes. Work on a fitting memo is described by what it leaves: a
fitting memo and a result with a property, or a stop, which must not happen where the
trees are valid. Such descriptions compose along the steps of the work.
-/

namespace X64Backend.Code

/-- No place of the expression is empty, and its operators are those of the language. -/
def Expr.Valid : Expr → Prop
  | .const _ | .name _ | .temp _ => True
  | .mem a => a.Valid
  | .binary op l r => (∀ symbol, op ≠ .other symbol) ∧ l.Valid ∧ r.Valid
  | .absent => False

theorem Expr.Valid.describe? {e : Expr} (h : e.Valid) : ∃ text, e.describe? = some text := by
  induction e with
  | const v | name n | temp n => exact ⟨_, rfl⟩
  | mem a ih =>
    obtain ⟨text, ha⟩ := ih h
    exact ⟨_, by simp [Expr.describe?, ha]; rfl⟩
  | binary op l r ihl ihr =>
    obtain ⟨x, hl⟩ := ihl h.2.1
    obtain ⟨y, hr⟩ := ihr h.2.2
    exact ⟨_, by simp [Expr.describe?, hl, hr]; rfl⟩
  | absent => exact h.elim

/-- Every expression of the statement is valid, and the statement is there. -/
def Stmt.Valid : Stmt Expr → Prop
  | .move _ src => src.Valid
  | .store a src => a.Valid ∧ src.Valid
  | .call f args _ => f.Valid ∧ ∀ a ∈ args, a.Valid
  | .jump _ | .label _ | .ret none => True
  | .branch cond _ => cond.Valid
  | .ret (some v) => v.Valid
  | .absent => False

theorem mapM_describe? {es : List Expr} (h : ∀ e ∈ es, e.Valid) :
    ∃ texts, es.mapM Expr.describe? = some texts := by
  induction es with
  | nil => exact ⟨[], rfl⟩
  | cons e rest ih =>
    obtain ⟨text, he⟩ := (h e List.mem_cons_self).describe?
    obtain ⟨texts, hrest⟩ := ih fun x hx => h x (List.mem_cons_of_mem _ hx)
    exact ⟨text :: texts, by simp [he, hrest]⟩

theorem Stmt.Valid.describe? {s : Stmt Expr} (h : s.Valid) :
    ∃ text, s.describe? = some text := by
  cases s with
  | move dest src | branch cond l =>
    obtain ⟨x, hx⟩ := Expr.Valid.describe? h
    exact ⟨_, by simp [Stmt.describe?, hx]; rfl⟩
  | store a src =>
    obtain ⟨x, hx⟩ := h.1.describe?
    obtain ⟨y, hy⟩ := h.2.describe?
    exact ⟨_, by simp [Stmt.describe?, hx, hy]; rfl⟩
  | call f args result =>
    obtain ⟨x, hx⟩ := h.1.describe?
    obtain ⟨ys, hys⟩ := mapM_describe? h.2
    exact ⟨_, by simp [Stmt.describe?, hx, hys]; rfl⟩
  | jump l | label l => exact ⟨_, rfl⟩
  | ret value =>
    cases value with
    | none => exact ⟨_, rfl⟩
    | some v =>
      obtain ⟨x, hx⟩ := Expr.Valid.describe? h
      exact ⟨_, by simp [Stmt.describe?, hx]; rfl⟩
  | absent => exact h.elim

end X64Backend.Code

namespace X64Backend.Select

open Asm Code

/-- Which expressions and statements a number may stand for. -/
structure Numbering where
  expr : Nat → Expr → Prop
  stmt : Nat → Stmt Expr → Prop

/-- A property of tiles holds for all expressions that a number stands for, or for none. -/
def Numbering.Shares (num : Numbering) (P : Owner → Expr → Tile Reg → Prop) : Prop :=
  ∀ own id e e' t, num.expr id e → num.expr id e' → P own e t → P own e' t

/-- Every place of a node stands for its number's expression. -/
def Node.Follows (num : Numbering) : Node → Prop
  | .const id v => num.expr id (.const v)
  | .name id n => num.expr id (.name n)
  | .temp id n => num.expr id (.temp n)
  | .mem id a => num.expr id (.mem a.expr) ∧ a.Follows num
  | .binary id op l r => num.expr id (.binary op l.expr r.expr) ∧ l.Follows num ∧ r.Follows num
  | .absent => True

/-- The nodes of a statement. -/
def nodes : Stmt Node → List Node
  | .move _ src => [src]
  | .store a src => [a, src]
  | .call f args _ => f :: args
  | .branch cond _ => [cond]
  | .ret (some v) => [v]
  | .jump _ | .label _ | .ret none | .absent => []

/-- The statement and every place in it stand for what their numbers stand for. -/
def NodeStmt.Follows (num : Numbering) (s : NodeStmt) : Prop :=
  num.stmt s.id s.plain ∧ ∀ n ∈ nodes s.stmt, n.Follows num

section

variable (num : Numbering) (P : Owner → Expr → Tile Reg → Prop) (func : Name)

/-- All that the memo holds has the shapes of the rules, and the registers that were
given to expressions have been issued. -/
structure Memo.Fits (own : Owner) (memo : Memo) : Prop where
  issued (k : Nat) (e : Expr) (h : own k = some e) : k < memo.supply.issued
  exprs (id : Nat) (t : Tile Reg) (h : memo.exprs[id]? = some t) :
    ∃ e, num.expr id e ∧ P own e t
  stmts (id : Nat) (code : List Instr) (h : memo.stmts[id]? = some code) :
    ∃ s, num.stmt id s ∧ StmtCode P own func s code

/-- Work that leaves a fitting memo fitting and ends with a result that has a property.
It may stop only where `ok` fails. -/
def Ensures (ok : Prop) (own : Owner) {α : Type} (work : Selection α)
    (Q : Owner → α → Prop) : Prop :=
  ∀ memo, memo.Fits num P func own → match work.run.run memo with
    | (.ok a, memo') => ∃ own', own.Within own' ∧ memo'.Fits num P func own' ∧ Q own' a
    | (.error _, _) => ¬ ok

end

theorem run_bind {α β : Type} (work : Selection α) (next : α → Selection β) (memo : Memo) :
    (work >>= next).run.run memo = match work.run.run memo with
      | (.ok a, memo') => (next a).run.run memo'
      | (.error d, memo') => (.error d, memo') := by
  show (ExceptT.bindCont next (work.run.run memo).1).run (work.run.run memo).2 = _
  rcases work.run.run memo with ⟨_ | a, memo'⟩ <;> rfl

namespace Ensures

variable {num : Numbering} {P : Owner → Expr → Tile Reg → Prop} {func : Name} {ok : Prop}
  {own : Owner} {α β : Type}

theorem pure {a : α} {Q : Owner → α → Prop} (h : Q own a) :
    Ensures num P func ok own (pure a) Q := by
  intro memo hmemo
  exact ⟨own, .refl own, hmemo, h⟩

theorem pure_none {R : Owner → α → Prop} :
    Ensures num P func ok own (Pure.pure none) fun own' o => ∀ a ∈ o, R own' a := by
  apply pure
  intro a ha
  cases ha

theorem throw {d : Defect} {Q : Owner → α → Prop} (h : ¬ ok) :
    Ensures num P func ok own (throw d) Q := by
  intro memo _
  exact h

theorem bind {work : Selection α} {next : α → Selection β} {Q : Owner → α → Prop}
    {R : Owner → β → Prop} (hwork : Ensures num P func ok own work Q)
    (hnext : ∀ own' a, own.Within own' → Q own' a → Ensures num P func ok own' (next a) R) :
    Ensures num P func ok own (work >>= next) R := by
  intro memo hmemo
  have hfirst := hwork memo hmemo
  rw [run_bind]
  rcases hres : work.run.run memo with ⟨d | a, memo'⟩
  · rw [hres] at hfirst
    exact hfirst
  · rw [hres] at hfirst
    obtain ⟨own', hown, hmemo', hQ⟩ := hfirst
    have hsecond := hnext own' a hown hQ memo' hmemo'
    dsimp only
    rcases hres' : (next a).run.run memo' with ⟨d | b, memo''⟩
    · rw [hres'] at hsecond
      exact hsecond
    · rw [hres'] at hsecond
      obtain ⟨own'', hown', hmemo'', hR⟩ := hsecond
      exact ⟨own'', hown.trans hown', hmemo'', hR⟩

theorem imp {work : Selection α} {Q R : Owner → α → Prop}
    (hwork : Ensures num P func ok own work Q) (h : ∀ own' a, Q own' a → R own' a) :
    Ensures num P func ok own work R := by
  intro memo hmemo
  have hend := hwork memo hmemo
  rcases hres : work.run.run memo with ⟨d | a, memo'⟩
  · rw [hres] at hend
    exact hend
  · grind

theorem get : Ensures num P func ok own get fun own' memo => memo.Fits num P func own' := by
  intro memo hmemo
  exact ⟨own, .refl own, hmemo, hmemo⟩

theorem modify {f : Memo → Memo}
    (h : ∀ memo : Memo, memo.Fits num P func own → (f memo).Fits num P func own) :
    Ensures num P func ok own (modify f) fun own' _ => own' = own := by
  intro memo hmemo
  exact ⟨own, .refl own, h memo hmemo, rfl⟩

theorem countMiss : Ensures num P func ok own countMiss fun own' _ => own' = own :=
  modify fun _ hmemo => ⟨hmemo.issued, hmemo.exprs, hmemo.stmts⟩

/-- A register can be issued for any expression. -/
theorem fresh (rules : Rules P) (e : Expr) :
    Ensures num P func ok own fresh fun own' r => ∃ k, r = .issued k ∧ own' k = some e := by
  intro memo hmemo
  have hnew : own memo.supply.issued = none := by
    rw [Option.eq_none_iff_forall_ne_some]
    intro f hf
    exact Nat.lt_irrefl _ (hmemo.issued _ _ hf)
  have hown := Owner.within_give e hnew
  refine ⟨own.give memo.supply.issued e, hown, ⟨?_, ?_, ?_⟩, _, rfl, by simp⟩
  · intro k f hk
    show k < memo.supply.issued + 1
    by_cases heq : k = memo.supply.issued
    · omega
    · rw [Owner.give, if_neg heq] at hk
      exact Nat.lt_succ_of_lt (hmemo.issued k f hk)
  · grind [hmemo.exprs, rules.mono]
  · intro id code hcode
    obtain ⟨s, hs, hP⟩ := hmemo.stmts id code hcode
    exact ⟨s, hs, hP.mono (rules.mono hown)⟩

theorem described {text? : Option Bytes} (h : ok → ∃ text, text? = some text) :
    Ensures num P func ok own (described text?) fun own' _ => own' = own := by
  cases text? with
  | some text => exact pure rfl
  | none =>
    apply throw
    intro hok
    obtain ⟨_, h⟩ := h hok
    cases h

theorem remark {heading : Bytes} {n : Node} {f : Instr → α} {Q : Owner → α → Prop}
    (h : ok → n.expr.Valid) (hf : ∀ text, Q own (f (.comment text))) :
    Ensures num P func ok own (do return f (← remark heading n)) Q := by
  apply bind (bind (described fun hok => (h hok).describe?) fun own' text _ hown =>
    pure (Q := fun own' x => own' = own ∧ ∃ text, x = Instr.comment text) ⟨hown, _, rfl⟩)
  rintro own' x - ⟨rfl, text, rfl⟩
  exact pure (hf text)

end Ensures

end X64Backend.Select
