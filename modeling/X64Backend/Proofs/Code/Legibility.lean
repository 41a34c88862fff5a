import X64Backend.Proofs.Code.Reading

/-! # What is read can be read again

Whatever a text denotes has only names that are words, constants that have numerals, and
operators of the language, so it can be printed.
-/

namespace X64Backend.Code

open List

variable {text : Bytes} {m : SourceModule}

/-- All tokens left are ones that a text can have, and fuel was enough to find them. -/
structure Tokens.Legible (tokens : Tokens) : Prop where
  token : ∀ lexeme ∈ tokens.lexemes, lexeme.token.Legible
  ending (line : Nat) : tokens.ending ≠ .flawed .exhausted line

theorem Tokens.legible_scanFrom {fuel : Nat} (line : Nat) {text : Bytes} (h : text.length ≤ fuel) :
    (∀ lexeme ∈ (scanFrom fuel line text).1, lexeme.token.Legible) ∧
      ∀ last, (scanFrom fuel line text).2 ≠ .flawed .exhausted last := by
  fun_induction scanFrom fuel line text with
  | case1 => simp
  | case2 line text line' b rest hskip =>
    have hle := length_skipBlanks_le false line text
    rw [hskip] at hle
    exact absurd (Nat.le_trans hle h) (Nat.not_succ_le_zero _)
  | case3 line text line' b rest fuel _ flaw hread =>
    exact ⟨by simp, fun last heq => Token.read_ne_exhausted b rest (hread.trans (by cases heq; rfl))⟩
  | case4 line text line' b rest fuel hskip token after hread lexemes ending hscan ih =>
    have hle := length_skipBlanks_le false line text
    rw [hskip, length_cons] at hle
    have hafter := Token.length_of_read hread
    obtain ⟨htokens, hending⟩ := ih (by omega)
    rw [hscan] at htokens hending
    exact ⟨forall_mem_cons.mpr ⟨(Token.read_spec hread).choose_spec.2.1, htokens⟩, hending⟩

theorem Tokens.legible_ofText (text : Bytes) : (Tokens.ofText text).Legible :=
  have h := Tokens.legible_scanFrom 1 (Nat.le_refl text.length)
  ⟨h.1, h.2⟩

/-- The line of the end. -/
def Ending.line : Ending → Nat
  | .finished line | .flawed _ line => line

/-- The lines that a fault can name: of the last token taken, of the end, and of the tokens left. -/
def Tokens.lines (tokens : Tokens) : List Nat :=
  tokens.line :: tokens.ending.line :: tokens.lexemes.map Lexeme.line

namespace Reader

variable {α β : Type} {r : Reader α} {f : α → Reader β} {a : α} {n m fuel : Nat}
  {P P' : α → Nat → Prop} {Q : β → Nat → Prop}

/-- What two runs of a reader over the same tokens give: faults, or one value with the same tokens
left, all of them ones that a text can have. `P` holds of the value and the number of tokens left.
A fault names one of the lines, and is not for want of fuel. -/
inductive Same (P : α → Nat → Prop) (lines : List Nat) :
    Except Fault (α × Tokens) → Except Fault (α × Tokens) → Prop
  | faults {fault fault' : Fault} (hcause : fault.cause ≠ .flaw .exhausted)
      (hline : fault.line ∈ lines) : Same P lines (.error fault) (.error fault')
  | value {a : α} {rest rest' : Tokens} (ha : P a rest.lexemes.length)
      (hview : rest.view = rest'.view) (hrest : rest.Legible) (hlines : rest.lines ⊆ lines) :
      Same P lines (.ok (a, rest)) (.ok (a, rest'))

theorem Same.imp {lines lines' : List Nat} {x y : Except Fault (α × Tokens)} (h : Same P lines x y)
    (hP : ∀ a m, P a m → P' a m) (hsub : lines ⊆ lines') : Same P' lines' x y := by
  cases h with
  | faults hcause hline => exact .faults hcause (hsub hline)
  | value ha hview hrest hlines =>
    exact .value (hP _ _ ha) hview hrest (List.Subset.trans hlines hsub)

/-- From `n` tokens that a text can have, the reader gives only values of which `P` holds, and the
lines of the tokens make no difference to it. -/
def Yields (n : Nat) (r : Reader α) (P : α → Nat → Prop) : Prop :=
  ∀ tokens tokens', tokens.view = tokens'.view → tokens.Legible → tokens.lexemes.length = n →
    Same P tokens.lines (r tokens) (r tokens')

/-- So it does, and takes a token at least. -/
abbrev Takes (n : Nat) (r : Reader α) (P : α → Prop) : Prop :=
  Yields n r fun a m => P a ∧ m < n

theorem yields_pure (h : P a n) : Yields n (pure a) P := by
  rintro tokens tokens' hview hlegible rfl
  exact .value h hview hlegible (List.Subset.refl _)

theorem yields_wanted {wanted : Wanted} {got : Option Token} :
    Yields n (fail (.wanted wanted got)) P := fun _ _ _ _ _ => .faults (by simp) mem_cons_self

theorem Yields.bind (hr : Yields n r P) (hf : ∀ a m, P a m → Yields m (f a) Q) :
    Yields n (r >>= f) Q := by
  intro tokens tokens' hview hlegible hlength
  have hfirst := hr tokens tokens' hview hlegible hlength
  rw [bind_eq, bind_eq]
  generalize r tokens = x, r tokens' = y at hfirst
  cases hfirst with
  | faults hcause hline => exact .faults hcause hline
  | value ha hview hrest hlines =>
    exact (hf _ _ ha _ _ hview hrest rfl).imp (fun _ _ => id) hlines

theorem Yields.imp (h : Yields n r P) (hP : ∀ a m, P a m → P' a m) : Yields n r P' :=
  fun tokens tokens' hview hlegible hlength =>
    (h tokens tokens' hview hlegible hlength).imp hP (List.Subset.refl _)

/-- What is known when a token of `n` was taken, if there was one. -/
def Took (n : Nat) : Option Token → Nat → Prop
  | none, m => n = 0 ∧ m = 0
  | some t, m => t.Legible ∧ m + 1 = n

theorem Took.le {t : Option Token} (h : Took n t m) : m ≤ n := by
  cases t with
  | none => exact h.2 ▸ Nat.zero_le n
  | some t => exact Nat.le_of_succ_le (Nat.le_of_eq h.2)

theorem yields_next : Yields n next (Took n) := by
  rintro ⟨lexemes, ending, line⟩ ⟨lexemes', ending', line'⟩ hview hlegible rfl
  obtain ⟨htokens, hends⟩ := Prod.mk.inj hview
  cases lexemes with
  | nil =>
    cases map_eq_nil_iff.mp htokens.symm
    cases ending <;> cases ending' <;> cases hends
    · exact .value ⟨rfl, rfl⟩ rfl ⟨hlegible.token, hlegible.ending⟩
        (by simp [Tokens.lines, Ending.line])
    · exact .faults (fun hcause => hlegible.ending _ (by cases hcause; rfl))
        (by simp [Tokens.lines, Ending.line])
  | cons lexeme rest =>
    obtain ⟨lexeme', rest', rfl, htoken, hrest⟩ := map_eq_cons_iff.mp htokens.symm
    obtain ⟨hfirst, hothers⟩ := forall_mem_cons.mp hlegible.token
    show Same _ _ _ (.ok (some lexeme'.token, _))
    rw [htoken]
    refine .value ⟨hfirst, rfl⟩ (Prod.ext hrest.symm hends) ⟨hothers, hlegible.ending⟩ ?_
    intro l hl
    simp only [Tokens.lines, mem_cons, map_cons] at hl ⊢
    tauto

/-- What is known when the next of `n` tokens was looked at. -/
def Saw (n : Nat) (t : Option Token) (m : Nat) : Prop := m = n ∧ ∃ k, Took n t k

theorem yields_peek : Yields n peek (Saw n) := by
  intro tokens tokens' hview hlegible hlength
  have hpeek (tokens : Tokens) :
      peek tokens = (next tokens).map fun p => (p.1, tokens) := by
    rcases tokens with ⟨_ | ⟨lexeme, rest⟩, ending, line⟩
    · cases ending <;> rfl
    · rfl
  have hnext := yields_next tokens tokens' hview hlegible hlength
  rw [hpeek, hpeek]
  generalize next tokens = x, next tokens' = y at hnext
  cases hnext with
  | faults hcause hline => exact .faults hcause hline
  | value ha _ _ _ => exact .value ⟨hlength, _, ha⟩ hview hlegible (List.Subset.refl _)

/-- A token that was seen is taken. -/
theorem yields_seen {t : Token} (h : Took n (some t) m) : Yields n next fun _ k => k + 1 = n := by
  refine yields_next.imp fun got k hgot => ?_
  cases got with
  | none => exact absurd (h.2.trans hgot.1) (Nat.succ_ne_zero m)
  | some got => exact hgot.2

theorem yields_expect {mark : Mark} : Takes n (expect mark) fun _ => True := by
  refine .bind yields_next fun t m ht => ?_
  split
  next heq =>
    subst heq
    exact yields_pure ⟨trivial, Nat.lt_of_succ_le (Nat.le_of_eq ht.2)⟩
  next => exact yields_wanted

theorem yields_identifier : Takes n identifier fun name => Token.isWord name = true := by
  refine .bind yields_next fun t m ht => ?_
  split
  · exact yields_pure ⟨ht.1, Nat.lt_of_succ_le (Nat.le_of_eq ht.2)⟩
  · exact yields_wanted

theorem yields_minusSigns (hfuel : n < fuel) : Yields n (minusSigns fuel) fun _ m => m ≤ n := by
  induction fuel generalizing n with
  | zero => cases hfuel
  | succ fuel ih =>
    refine .bind yields_peek ?_
    rintro t _ ⟨rfl, k, hk⟩
    split
    next heq =>
      subst heq
      refine (yields_seen hk).bind fun t m hm => ?_
      exact (ih (by omega)).bind fun _ _ hle => yields_pure (by omega)
    next => exact yields_pure (Nat.le_refl _)

theorem legible_const {v : Int64} (h : 0 ≤ v) : (Expr.const v).Legible := by
  have hmin : ¬ 0 ≤ Int64.minValue := by decide
  intro heq
  exact hmin (heq ▸ h)

theorem legible_negate {e : Expr} (h : e.Legible) : (negate e).Legible := by
  have hzero : (0 : Int64) ≠ Int64.minValue := by decide
  cases e with
  | const v =>
    intro heq
    have : v = -Int64.minValue := by rw [← heq, Int64.neg_neg]
    exact h (this.trans (by decide))
  | absent => cases h
  | _ => exact ⟨rfl, hzero, h⟩

section

variable {inner : Reader Expr}

theorem yields_index (h : ∀ m < n, Takes m inner Expr.Legible) :
    Takes n (index inner) Expr.Legible := by
  refine .bind yields_expect fun _ m hm => (h m hm.2).bind fun e k he => .bind yields_expect ?_
  exact fun _ j hj => yields_pure ⟨he.1, by omega⟩

theorem yields_primary (h : ∀ m < n, Takes m inner Expr.Legible) :
    Takes n (primary inner) Expr.Legible := by
  refine .bind yields_next fun t m ht => ?_
  cases t with
  | none => exact yields_wanted
  | some t =>
    obtain ⟨ht, rfl⟩ := ht
    cases t with
    | number v => exact yields_pure ⟨legible_const ht, Nat.lt_succ_self m⟩
    | word name =>
      by_cases hname : name = "mem"
      · simp only [if_pos hname]
        refine (yields_index fun k hk => h k (by omega)).bind fun e k he => ?_
        exact yields_pure ⟨he.1, by omega⟩
      · simp only [if_neg hname]
        exact yields_pure ⟨⟨ht, hname⟩, Nat.lt_succ_self m⟩
    | mark mark =>
      cases mark with
      | «at» =>
        exact .bind yields_identifier fun _ k hname => yields_pure ⟨hname.1, by omega⟩
      | openParen =>
        refine (h m (Nat.lt_succ_self m)).bind fun e k he => .bind yields_expect fun _ j hj => ?_
        exact yields_pure ⟨he.1, by omega⟩
      | _ => exact yields_wanted
    | string content => exact yields_wanted

theorem yields_unary (hfuel : n < fuel) (h : ∀ m < n, Takes m inner Expr.Legible) :
    Takes n (unary fuel inner) Expr.Legible := by
  refine (yields_minusSigns hfuel).bind fun signs m hm => ?_
  refine (yields_primary fun k hk => h k (by omega)).bind fun e k he => ?_
  refine yields_pure ⟨?_, by omega⟩
  induction signs with
  | zero => exact he.1
  | succ signs ih => exact legible_negate ih

theorem yields_operands {operand : Reader Expr} (level : Nat) (hfuel : n < fuel)
    (h : ∀ m < n, Takes m operand Expr.Legible) {left : Expr} (hleft : left.Legible) :
    Yields n (operands operand level fuel left) fun e m => e.Legible ∧ m ≤ n := by
  induction fuel generalizing n left with
  | zero => cases hfuel
  | succ fuel ih =>
    refine .bind yields_peek ?_
    rintro t _ ⟨rfl, k, hk⟩
    split
    · split
      · rename_i hop
        refine (yields_seen hk).bind fun t m hm => ?_
        refine (h m (by omega)).bind fun right j hright => ?_
        have hwhole : (Expr.binary _ left right).Legible := ⟨by rw [hop]; rfl, hleft, hright.1⟩
        refine (ih (by omega) (fun i hi => h i (by omega)) hwhole).imp ?_
        exact fun _ _ he => ⟨he.1, by omega⟩
      · exact yields_pure ⟨hleft, Nat.le_refl _⟩
    · exact yields_pure ⟨hleft, Nat.le_refl _⟩

theorem yields_leveled (above : Nat) (hfuel : n < fuel) (h : ∀ m < n, Takes m inner Expr.Legible) :
    Takes n (leveled fuel inner above) Expr.Legible := by
  induction above generalizing n with
  | zero => exact yields_unary hfuel h
  | succ above ih =>
    refine (ih hfuel h).bind fun first m hfirst => ?_
    have hoperand : ∀ k < m, Takes k (leveled fuel inner above) Expr.Legible := fun k hk =>
      ih (by omega) fun j hj => h j (by omega)
    exact (yields_operands _ (by omega) hoperand hfirst.1).imp fun _ _ he => ⟨he.1, by omega⟩

end

theorem yields_expr (hfuel : n < fuel) : Takes n (expr fuel) Expr.Legible := by
  induction fuel generalizing n with
  | zero => cases hfuel
  | succ fuel ih => exact yields_leveled _ hfuel fun m hm => ih (by omega)

theorem yields_callArgs (hfuel : n < fuel) :
    Takes n (callArgs fuel) fun args => ∀ e ∈ args, e.Legible := by
  induction fuel generalizing n with
  | zero => cases hfuel
  | succ fuel ih =>
    refine (yields_expr hfuel).bind fun arg m harg => .bind yields_next fun t k ht => ?_
    split
    · have := ht.2
      exact yields_pure ⟨by simpa using harg.1, by omega⟩
    · have := ht.2
      refine (ih (by omega)).bind fun args j hargs => ?_
      exact yields_pure ⟨forall_mem_cons.mpr ⟨harg.1, hargs.1⟩, by omega⟩
    · exact yields_wanted

theorem yields_call (hfuel : n < fuel) (returns : Bool) {result : Option Name}
    (hresult : ∀ name ∈ result, IsTarget name) :
    Takes n (call fuel result) (Stmt.Legible returns) := by
  refine (yields_primary fun m hm => yields_expr (by omega)).bind fun func m hfunc => ?_
  refine .bind yields_expect fun _ k hk => .bind yields_peek ?_
  rintro t _ ⟨rfl, _, ht⟩
  split
  next heq =>
    subst heq
    refine (yields_seen ht).bind fun t j hj => ?_
    exact yields_pure ⟨⟨hfunc.1, by simp, hresult⟩, by omega⟩
  next =>
    refine (yields_callArgs (by omega)).bind fun args j hargs => ?_
    exact yields_pure ⟨⟨hfunc.1, hargs.1, hresult⟩, by omega⟩

theorem yields_stmt (hfuel : n < fuel) (returns : Bool) :
    Takes n (stmt fuel returns) (Stmt.Legible returns) := by
  have hexpr {m : Nat} (hm : m < n) : Takes m (expr fuel) Expr.Legible := yields_expr (by omega)
  refine .bind yields_next fun t m ht => ?_
  split
  · rename_i word
    obtain ⟨hword, rfl⟩ := ht
    split
    · exact .bind yields_identifier fun _ k hname => yields_pure ⟨hname.1, by omega⟩
    split
    · refine (hexpr (Nat.lt_succ_self m)).bind fun cond k hcond =>
        .bind yields_next fun got j hgot => ?_
      split
      next heq =>
        subst heq
        have := hgot.2
        exact .bind yields_identifier fun _ i hname => yields_pure ⟨⟨hcond.1, hname.1⟩, by omega⟩
      next => exact yields_wanted
    split
    · split
      · rename_i hreturns
        refine (hexpr (Nat.lt_succ_self m)).bind fun e k he => ?_
        exact yields_pure ⟨⟨hreturns.symm, by simpa using he.1⟩, by omega⟩
      · rename_i hreturns
        exact yields_pure ⟨⟨(Bool.of_not_eq_true hreturns).symm, by simp⟩, Nat.lt_succ_self m⟩
    split
    · exact (yields_call (by omega) returns (by simp)).imp fun _ _ h => ⟨h.1, by omega⟩
    split
    · refine (yields_index fun k hk => hexpr (by omega)).bind fun a k ha => ?_
      refine .bind yields_expect fun _ j hj => (hexpr (by omega)).bind fun e i he => ?_
      exact yields_pure ⟨⟨ha.1, he.1⟩, by omega⟩
    · rename_i hgoto hif hreturn hcall hmem
      have hword : IsTarget word :=
        ⟨hword, by simp [statementWords, hgoto, hif, hreturn, hcall, hmem]⟩
      refine .bind yields_next fun got k hgot => ?_
      split
      · have := hgot.2
        exact yields_pure ⟨hword, by omega⟩
      · have := hgot.2
        refine .bind yields_peek ?_
        rintro t _ ⟨rfl, _, ht⟩
        split
        next heq =>
          subst heq
          refine (yields_seen ht).bind fun _ j hj => ?_
          refine (yields_call (by omega) returns (by simpa using hword)).imp ?_
          exact fun _ _ h => ⟨h.1, by omega⟩
        next =>
          exact (hexpr (by omega)).bind fun e j he => yields_pure ⟨⟨hword, he.1⟩, by omega⟩
      · exact yields_wanted
  · exact yields_wanted

theorem Yields.inside (h : Yields n r P) (name : Name) : Yields n (inside name r) P := by
  intro tokens tokens' hview hlegible hlength
  have hsame := h tokens tokens' hview hlegible hlength
  simp only [Reader.inside]
  generalize r tokens = x, r tokens' = y at hsame
  cases hsame with
  | faults hcause hline => exact .faults hcause hline
  | value ha hview hrest hlines => exact .value ha hview hrest hlines

theorem yields_body (name : Name) (returns : Bool) (hfuel : n < fuel) :
    Takes n (body name returns fuel) fun stmts => ∀ s ∈ stmts, s.Legible returns := by
  induction fuel generalizing n with
  | zero => cases hfuel
  | succ fuel ih =>
    refine .bind yields_peek ?_
    rintro t _ ⟨rfl, k, ht⟩
    split
    · exact (yields_seen ht).bind fun _ m hm => yields_pure ⟨by simp, by omega⟩
    · refine (yields_seen ht).bind fun _ m hm => ?_
      exact (ih (by omega)).imp fun _ _ h => ⟨h.1, by omega⟩
    · exact fun _ _ _ _ _ => .faults (by simp) mem_cons_self
    · refine ((yields_stmt hfuel _).inside name).bind fun s m hs => ?_
      refine (ih (by omega)).bind fun stmts j hstmts => ?_
      exact yields_pure ⟨forall_mem_cons.mpr ⟨hs.1, hstmts.1⟩, by omega⟩

theorem yields_moreArgs (hfuel : n < fuel) : Yields n (moreArgs fuel) fun names m =>
    (∀ name ∈ names, Token.isWord name = true) ∧ names.length + m < n := by
  induction fuel generalizing n with
  | zero => cases hfuel
  | succ fuel ih =>
    refine .bind yields_next fun t m ht => ?_
    split
    · have := ht.2
      exact yields_pure ⟨by simp, by simp; omega⟩
    · have := ht.2
      refine .bind yields_next fun t k ht => ?_
      split
      · obtain ⟨hword, hk⟩ := ht
        refine (ih (by omega)).bind fun names j hnames => ?_
        exact yields_pure ⟨forall_mem_cons.mpr ⟨hword, hnames.1⟩, by simp; omega⟩
      · exact yields_wanted
    · exact yields_wanted

theorem yields_args (hfuel : n < fuel) : Yields n (args fuel) fun names m =>
    (∀ name ∈ names, Token.isWord name = true) ∧ names.length + m < n + 1 := by
  refine .bind yields_next fun t m ht => ?_
  split
  · have := ht.2
    exact yields_pure ⟨by simp, by simp; omega⟩
  · obtain ⟨hword, hm⟩ := ht
    refine (yields_moreArgs (by omega)).bind fun names j hnames => ?_
    exact yields_pure ⟨forall_mem_cons.mpr ⟨hword, hnames.1⟩, by simp; omega⟩
  · exact yields_wanted

theorem yields_func (hfuel : n < fuel) :
    Takes n (func fuel) fun fn => fn.Legible ∧ fn.args.length ≤ n := by
  refine .bind yields_identifier fun name m hname => .bind yields_expect fun _ k hk => ?_
  refine (yields_args (by omega)).bind fun args j hargs => .bind yields_next fun got i hgot => ?_
  have hrest (returns : Bool) (got : Option Token) {i : Nat} (hi : i ≤ j) :
      Yields i (if got = some (.mark .openBrace) then do
          let body ← body name returns fuel
          return { name, args, returns, body }
        else fail (.wanted (.mark .openBrace) got))
        fun (fn : SourceFunc) m => (fn.Legible ∧ fn.args.length ≤ n) ∧ m < n := by
    split
    · refine (yields_body name returns (by omega)).bind fun body m hbody => ?_
      exact yields_pure ⟨⟨⟨hname.1, hargs.1, hbody.1⟩, by show args.length ≤ n; omega⟩, by omega⟩
    · exact yields_wanted
  split
  · have := hgot.2
    refine .bind yields_next fun got l hl => ?_
    refine (yields_pure (P := fun p m => m = l) rfl).bind fun p _ h => hrest p.1 p.2 ?_
    have := hl.le
    omega
  · refine (yields_pure (P := fun p m => m = i) rfl).bind fun p _ h => hrest p.1 p.2 ?_
    have := hgot.le
    omega

theorem yields_global : Takes n global fun g => Token.isWord g.name = true := by
  refine .bind yields_identifier fun name m hname => .bind yields_expect fun _ k hk => ?_
  refine .bind yields_next fun t j ht => ?_
  split
  · have := ht.2
    exact yields_pure ⟨hname.1, by omega⟩
  · exact yields_wanted

theorem yields_declarations (hfuel : n < fuel) : Yields n (declarations fuel) fun m _ =>
    m.Legible ∧ ∀ fn ∈ m.funcs, fn.args.length ≤ n := by
  induction fuel generalizing n with
  | zero => cases hfuel
  | succ fuel ih =>
    refine .bind yields_next fun t k ht => ?_
    split
    · exact yields_pure ⟨⟨by simp, by simp⟩, by simp⟩
    · have := ht.2
      split
      · refine .bind yields_global fun g j hg => (ih (by omega)).bind fun m i hm => yields_pure ?_
        exact ⟨⟨forall_mem_cons.mpr ⟨hg.1, hm.1.globals⟩, hm.1.funcs⟩,
          fun fn hfn => Nat.le_trans (hm.2 fn hfn) (by omega)⟩
      split
      · refine (yields_func (by omega)).bind fun fn j hfn => (ih (by omega)).bind fun m i hm => ?_
        refine yields_pure ⟨⟨hm.1.globals, forall_mem_cons.mpr ⟨hfn.1.1, hm.1.funcs⟩⟩,
          forall_mem_cons.mpr ⟨Nat.le_trans hfn.1.2 (by omega), fun g hg => ?_⟩⟩
        exact Nat.le_trans (hm.2 g hg) (by omega)
      · exact yields_wanted
    · exact yields_wanted

end Reader

theorem Tokens.length_scanFrom_le (fuel line : Nat) (text : Bytes) :
    (scanFrom fuel line text).1.length ≤ fuel := by
  fun_induction scanFrom fuel line text with
  | case4 fuel line text line' b rest _ token after hread lexemes ending hscan ih =>
    rw [hscan] at ih
    exact Nat.succ_le_succ ih
  | _ => exact Nat.zero_le _

theorem Module.yields_of_read (h : Module.read text = .ok m) :
    m.Legible ∧ ∀ fn ∈ m.funcs, fn.args.length ≤ (Tokens.ofText text).lexemes.length := by
  obtain ⟨final, hread⟩ := Module.ofTokens_eq_ok_iff.mp h
  have hsame := Reader.yields_declarations (Nat.lt_succ_self _) _ _ rfl
    (Tokens.legible_ofText text) rfl
  rw [hread] at hsame
  cases hsame with
  | value hm _ _ _ => exact hm

/-- Whatever a text denotes can have been read. -/
theorem Module.legible_of_read (h : Module.read text = .ok m) : m.Legible :=
  (Module.yields_of_read h).1

/-- A function has no more arguments than the text has bytes, but for a few. -/
theorem Module.length_args_le (h : Module.read text = .ok m) :
    ∀ fn ∈ m.funcs, fn.args.length ≤ text.length + 2 := by
  have hlexemes : (Tokens.ofText text).lexemes.length ≤ text.length :=
    Tokens.length_scanFrom_le text.length 1 text
  intro fn hfn
  have hle := (Module.yields_of_read h).2 fn hfn
  omega

end X64Backend.Code
