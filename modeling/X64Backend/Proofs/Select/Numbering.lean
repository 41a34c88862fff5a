import X64Backend.Proofs.Select.Memo

/-! # Numbered trees

Numbering the places of a tree leaves the tree as it was, and no number stands for two
places: numbers are the positions in the list of all places, each behind those below it.
-/

namespace X64Backend.Select

open Code List

variable {num : Numbering} {next : Nat}

theorem Node.expr_number (next : Nat) (e : Expr) : (number next e).1.expr = e := by
  induction e generalizing next with
  | const v | name n | temp n | absent => rfl
  | mem a ih => rw [number, expr, ih]
  | binary op l r ihl ihr => rw [number, expr, ihl, ihr]

theorem Node.map_expr_numberAll (next : Nat) (es : List Expr) :
    (numberAll next es).1.map expr = es := by
  induction es generalizing next with
  | nil => rfl
  | cons e rest ih => rw [numberAll, map_cons, expr_number, ih]

namespace NodeStmt

theorem plain_number (next : Nat) (s : Stmt Expr) : (number next s).1.plain = s := by
  cases s with
  | move dest src | store a src | branch cond target =>
    simp only [number, plain, Stmt.map, Node.expr_number]
  | call f args result =>
    simp only [number, plain, Stmt.map, Node.expr_number, Node.map_expr_numberAll]
  | ret value =>
    cases value with
    | none => rfl
    | some v => simp only [number, plain, Stmt.map, Node.expr_number, Option.map_some]
  | jump target | label l | absent => rfl

theorem map_plain_numberAll (next : Nat) (body : List (Stmt Expr)) :
    (numberAll next body).map plain = body := by
  induction body generalizing next with
  | nil => rfl
  | cons s rest ih => rw [numberAll, map_cons, plain_number, ih]

end NodeStmt

/-! ## Numbers stand for one place -/

/-- A number stands for one expression and for one statement. -/
structure Numbering.Unique (num : Numbering) : Prop where
  expr {id : Nat} {e e' : Expr} (h : num.expr id e) (h' : num.expr id e') : e = e'
  stmt {id : Nat} {s s' : Stmt Expr} (h : num.stmt id s) (h' : num.stmt id s') : s = s'

/-- A table of expressions numbers a body whose nodes it lists. -/
theorem exists_numbering (exprs : List Expr) {body : List NodeStmt}
    (h : ∀ s ∈ body, s.Follows ⟨fun id e => exprs[id]? = some e,
      fun id s => (body.find? fun st => st.id = id).map NodeStmt.plain = some s⟩) :
    ∃ num : Numbering, num.Unique ∧ ∀ s ∈ body, s.Follows num := by
  refine ⟨_, ⟨?_, ?_⟩, h⟩ <;> exact fun h h' => Option.some.inj (h.symm.trans h')

theorem Numbering.Unique.shares (h : num.Unique) (P : Owner → Expr → Tile Asm.Reg → Prop) :
    num.Shares P := by
  intro own id e e' t he he' ht
  rwa [← h.expr he he']

/-- The places of an expression, each behind those below it. -/
def places : Expr → List Expr
  | .mem a => places a ++ [.mem a]
  | .binary op l r => places l ++ places r ++ [.binary op l r]
  | .absent => []
  | e => [e]

/-- The numbers from `next` on stand for a list of expressions. -/
def Numbering.From (num : Numbering) (next : Nat) (es : List Expr) : Prop :=
  ∀ i e, es[i]? = some e → num.expr (next + i) e

theorem Numbering.from_append {a b : List Expr} :
    num.From next (a ++ b) ↔ num.From next a ∧ num.From (next + a.length) b := by
  constructor
  · intro h
    refine ⟨fun i e he => h i e ?_, fun i e he => ?_⟩
    · rw [getElem?_append_left (List.getElem?_eq_some_iff.mp he).1, he]
    · rw [Nat.add_assoc]
      refine h (a.length + i) e ?_
      rw [getElem?_append_right (Nat.le_add_right _ _), Nat.add_sub_cancel_left, he]
  · rintro ⟨ha, hb⟩ i e he
    by_cases hi : i < a.length
    · rw [getElem?_append_left hi] at he
      exact ha i e he
    · have hle := Nat.not_lt.mp hi
      rw [getElem?_append_right hle] at he
      have hnum := hb _ e he
      rwa [Nat.add_assoc, Nat.add_sub_cancel' hle] at hnum

theorem Numbering.From.head {e : Expr} {es : List Expr} (h : num.From next (e :: es)) :
    num.expr next e :=
  h 0 e rfl

theorem Node.number_snd (next : Nat) (e : Expr) :
    (number next e).2 = next + (places e).length := by
  induction e generalizing next with
  | const v | name n | temp n | absent => rfl
  | mem a ih => simp only [number, places, ih, length_append, length_singleton]; rfl
  | binary op l r ihl ihr =>
    simp only [number, places, ihl, ihr, length_append, length_singleton, Nat.add_assoc]

/-- A numbered tree follows every numbering that has its places in order. -/
theorem Node.follows_number {e : Expr} (h : num.From next (places e)) :
    (number next e).1.Follows num := by
  induction e generalizing next with
  | const v | name n | temp n => exact h.head
  | mem a ih =>
    obtain ⟨ha, hself⟩ := Numbering.from_append.mp h
    have hexpr := hself.head
    rw [← number_snd] at hexpr
    refine ⟨?_, ih ha⟩
    rwa [expr_number]
  | binary op l r ihl ihr =>
    obtain ⟨hlr, hself⟩ := Numbering.from_append.mp h
    obtain ⟨hl, hr⟩ := Numbering.from_append.mp hlr
    have hexpr := hself.head
    rw [length_append, ← Nat.add_assoc, ← number_snd, ← number_snd] at hexpr
    rw [← number_snd] at hr
    refine ⟨?_, ihl hl, ihr hr⟩
    rwa [expr_number, expr_number]
  | absent => trivial

theorem Node.numberAll_snd (next : Nat) (es : List Expr) :
    (numberAll next es).2 = next + (es.flatMap places).length := by
  induction es generalizing next with
  | nil => rfl
  | cons e rest ih =>
    rw [numberAll, flatMap_cons, length_append, ← Nat.add_assoc, ← number_snd]
    exact ih _

theorem Node.follows_numberAll {es : List Expr} (h : num.From next (es.flatMap places)) :
    ∀ n ∈ (numberAll next es).1, n.Follows num := by
  induction es generalizing next with
  | nil => exact fun n hn => absurd hn not_mem_nil
  | cons e rest ih =>
    obtain ⟨he, hrest⟩ := Numbering.from_append.mp h
    rw [← number_snd] at hrest
    exact forall_mem_cons.mpr ⟨follows_number he, ih hrest⟩

/-- The expressions of a statement. -/
def exprs : Stmt Expr → List Expr
  | .move _ src => [src]
  | .store a src => [a, src]
  | .call f args _ => f :: args
  | .branch cond _ => [cond]
  | .ret (some v) => [v]
  | .jump _ | .label _ | .ret none | .absent => []

namespace NodeStmt

theorem number_id (next : Nat) (s : Stmt Expr) :
    (number next s).1.id = next + ((exprs s).flatMap places).length ∧
      (number next s).2 = (number next s).1.id + 1 := by
  cases s with
  | ret value =>
    cases value with
    | none => exact ⟨rfl, rfl⟩
    | some v => simp [number, exprs, Node.number_snd]
  | _ => simp [number, exprs, Node.number_snd, Node.numberAll_snd, Nat.add_assoc]

theorem follows_number {num : Numbering} {next : Nat} {s : Stmt Expr}
    (hexprs : num.From next ((exprs s).flatMap places))
    (hstmt : num.stmt (next + ((exprs s).flatMap places).length) s) :
    (number next s).1.Follows num := by
  refine ⟨?_, ?_⟩
  · rwa [(number_id next s).1, plain_number]
  · cases s with
    | move dest src =>
      obtain ⟨hsrc, _⟩ := Numbering.from_append.mp hexprs
      exact forall_mem_singleton.mpr (Node.follows_number hsrc)
    | store a src =>
      obtain ⟨ha, hrest⟩ := Numbering.from_append.mp hexprs
      obtain ⟨hsrc, _⟩ := Numbering.from_append.mp hrest
      rw [← Node.number_snd] at hsrc
      exact forall_mem_cons.mpr ⟨Node.follows_number ha,
        forall_mem_singleton.mpr (Node.follows_number hsrc)⟩
    | call f args result =>
      obtain ⟨hf, hargs⟩ := Numbering.from_append.mp hexprs
      rw [← Node.number_snd] at hargs
      exact forall_mem_cons.mpr ⟨Node.follows_number hf, Node.follows_numberAll hargs⟩
    | branch cond target =>
      obtain ⟨hcond, _⟩ := Numbering.from_append.mp hexprs
      exact forall_mem_singleton.mpr (Node.follows_number hcond)
    | ret value =>
      cases value with
      | none => exact fun n hn => absurd hn not_mem_nil
      | some v =>
        obtain ⟨hv, _⟩ := Numbering.from_append.mp hexprs
        exact forall_mem_singleton.mpr (Node.follows_number hv)
    | jump target | label l | absent => exact fun n hn => absurd hn not_mem_nil

/-- What the numbers of a statement stand for, one after another. -/
def entries (s : Stmt Expr) : List (Expr ⊕ Stmt Expr) :=
  ((exprs s).flatMap places).map .inl ++ [.inr s]

/-- The numbering that has all places of a body one after another. -/
def numbering (body : List (Stmt Expr)) : Numbering where
  expr id e := (body.flatMap entries)[id]? = some (.inl e)
  stmt id s := (body.flatMap entries)[id]? = some (.inr s)

theorem numbering_unique (body : List (Stmt Expr)) : (numbering body).Unique where
  expr h h' := Sum.inl.inj (Option.some.inj (h.symm.trans h'))
  stmt h h' := Sum.inr.inj (Option.some.inj (h.symm.trans h'))

theorem follows_numberAll {num : Numbering} {next : Nat} {body : List (Stmt Expr)}
    (hexpr : ∀ i e, (body.flatMap entries)[i]? = some (.inl e) → num.expr (next + i) e)
    (hstmt : ∀ i s, (body.flatMap entries)[i]? = some (.inr s) → num.stmt (next + i) s) :
    ∀ s ∈ numberAll next body, s.Follows num := by
  induction body generalizing next with
  | nil => exact fun s hs => absurd hs not_mem_nil
  | cons s rest ih =>
    have hentry : ∀ {i : Nat} {x}, (entries s)[i]? = some x →
        ((s :: rest).flatMap entries)[i]? = some x := by
      intro i x hx
      rw [flatMap_cons, getElem?_append_left (List.getElem?_eq_some_iff.mp hx).1, hx]
    have hlater : ∀ i : Nat, ((s :: rest).flatMap entries)[(entries s).length + i]? =
        (rest.flatMap entries)[i]? := by
      intro i
      rw [flatMap_cons, getElem?_append_right (Nat.le_add_right _ _),
        Nat.add_sub_cancel_left]
    have hnext : (number next s).2 = next + (entries s).length := by
      obtain ⟨hid, hsnd⟩ := number_id next s
      rw [hsnd, hid, entries, length_append, length_map, length_singleton,
        Nat.add_assoc]
    have hcons : numberAll next (s :: rest) =
        (number next s).1 :: numberAll (next + (entries s).length) rest := by
      rw [← hnext]
      rfl
    rw [hcons]
    refine forall_mem_cons.mpr ⟨follows_number ?_ ?_, ?_⟩
    · intro i e he
      refine hexpr i e (hentry ?_)
      rw [entries, getElem?_append_left, getElem?_map, he]
      · rfl
      · rw [length_map]
        exact (List.getElem?_eq_some_iff.mp he).1
    · refine hstmt _ s (hentry ?_)
      rw [entries, getElem?_append_right (by simp)]
      simp
    · grind

end NodeStmt

/-- No number of a numbered body stands for two places. -/
theorem exists_unique_numberAll (body : List (Stmt Expr)) : ∃ num : Numbering, num.Unique ∧
    ∀ s ∈ NodeStmt.numberAll 0 body, s.Follows num := by
  refine ⟨NodeStmt.numbering body, NodeStmt.numbering_unique body, ?_⟩
  refine NodeStmt.follows_numberAll ?_ ?_
  · intro i e he
    rwa [Nat.zero_add]
  · intro i s hs
    rwa [Nat.zero_add]

/-- A function with its body numbered. -/
def numberFunc (f : SourceFunc) : Func NodeStmt :=
  { name := f.name, args := f.args, returns := f.returns, body := NodeStmt.numberAll 0 f.body }

theorem funcs_numberModule (m : SourceModule) :
    (numberModule m).funcs = m.funcs.map numberFunc := rfl

theorem map_plain_numberFunc (f : SourceFunc) : (numberFunc f).map NodeStmt.plain = f := by
  simp only [Func.map, numberFunc, NodeStmt.map_plain_numberAll]

/-- A function of a numbered module is one of the module with its body numbered. -/
theorem mem_numberModule {m : SourceModule} {fn : Func NodeStmt}
    (h : fn ∈ (numberModule m).funcs) : fn.map NodeStmt.plain ∈ m.funcs := by
  obtain ⟨f, hf, rfl⟩ := mem_map.mp h
  exact (map_plain_numberFunc f).symm ▸ hf

end X64Backend.Select
