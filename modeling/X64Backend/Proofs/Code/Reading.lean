import X64Backend.Proofs.Code.Spelling

/-! # Reading the tokens of code

The tokens of a module are read back as that module, unless a statement of it is one whose
tokens stand for something else. For expressions the proof follows the levels at which
operators bind: what is read at a level goes on with every operator of that level.
-/

namespace X64Backend.Code

open List

theorem exists_succ {n fuel : Nat} (h : n < fuel) : ∃ k, fuel = k + 1 := ⟨fuel - 1, by omega⟩

theorem Op.level?_lt {op : Op} {own : Nat} (h : op.level? = some own) : own < levelCount := by
  cases op <;> cases h <;> decide

namespace Reader

variable {α β : Type} {r : Reader α} {f : α → Reader β} {a : α} {b : β} {ends : Bool}
  {t : Token} {ts mid rest : List Token}

/-- From these tokens, behind which the text ends or not, the reader ends as `Q` says. -/
def Gives (ends : Bool) (r : Reader α) (ts : List Token) (Q : Except Fault (α × Tokens) → Prop) :
    Prop :=
  ∀ tokens : Tokens, tokens.view = (ts, ends) → Q (r tokens)

/-- From these tokens the reader gives `a` and leaves `rest`. -/
abbrev Reads (ends : Bool) (r : Reader α) (ts : List Token) (a : α) (rest : List Token) : Prop :=
  Gives ends r ts fun result => ∃ tokens, result = .ok (a, tokens) ∧ tokens.view = (rest, ends)

/-- From these tokens the reader does not give `a`. -/
abbrev Misses (ends : Bool) (r : Reader α) (ts : List Token) (a : α) : Prop :=
  Gives ends r ts fun result => ∀ tokens, result ≠ .ok (a, tokens)

theorem bind_eq {tokens : Tokens} : (r >>= f) tokens =
    match r tokens with
    | .ok (a, tokens') => f a tokens'
    | .error fault => .error fault := by
  show (r tokens >>= fun p => f p.1 p.2) = _
  cases r tokens with
  | ok p | error fault => rfl

theorem bind_eq_ok_iff {tokens final : Tokens} : (r >>= f) tokens = .ok (b, final) ↔
    ∃ a tokens', r tokens = .ok (a, tokens') ∧ f a tokens' = .ok (b, final) := by
  grind [bind_eq]

theorem reads_pure (a : α) (ts : List Token) : Reads ends (pure a) ts a ts :=
  fun tokens h => ⟨tokens, rfl, h⟩

theorem Reads.bind {Q : Except Fault (β × Tokens) → Prop} (hr : Reads ends r ts a mid)
    (hf : Gives ends (f a) mid Q) : Gives ends (r >>= f) ts Q := by
  intro tokens h
  obtain ⟨tokens', hread, hmid⟩ := hr tokens h
  rw [bind_eq, hread]
  exact hf tokens' hmid

theorem Reads.bind_pure (hr : Reads ends r ts a rest) (g : α → β) :
    Reads ends (r >>= fun a => pure (g a)) ts (g a) rest :=
  hr.bind (reads_pure _ _)

/-- A sequence gives no value that shows a first part which is not read. -/
theorem Misses.bind (hr : Misses ends r ts a)
    (hf : ∀ x tokens tokens', f x tokens = .ok (b, tokens') → x = a) :
    Misses ends (r >>= f) ts b := by
  intro tokens h final hread
  obtain ⟨x, tokens', hfirst, hrest⟩ := bind_eq_ok_iff.mp hread
  cases hf x tokens' final hrest
  exact hr tokens h tokens' hfirst

/-- From these tokens the reader stops with a fault. -/
abbrev Refuses (ends : Bool) (r : Reader α) (ts : List Token) : Prop :=
  Gives ends r ts fun result => ∃ fault, result = .error fault

theorem Refuses.bind (hr : Refuses ends r ts) : Refuses ends (r >>= f) ts := by
  intro tokens h
  obtain ⟨fault, hfault⟩ := hr tokens h
  exact ⟨fault, by rw [bind_eq, hfault]⟩

theorem Refuses.misses (hr : Refuses ends r ts) : Misses ends r ts a := by
  intro tokens h tokens' hread
  obtain ⟨fault, hfault⟩ := hr tokens h
  cases hfault.symm.trans hread

theorem reads_next (t : Token) (ts : List Token) : Reads ends next (t :: ts) (some t) ts := by
  rintro ⟨lexemes, ending, line⟩ h
  obtain ⟨hmap, hends⟩ := Prod.mk.inj h
  obtain ⟨lexeme, rest, rfl, rfl, rfl⟩ := map_eq_cons_iff.mp hmap
  exact ⟨_, rfl, Prod.ext rfl hends⟩

theorem Gives.next {f : Option Token → Reader α} {Q : Except Fault (α × Tokens) → Prop}
    (h : Gives ends (f (some t)) ts Q) : Gives ends (Reader.next >>= f) (t :: ts) Q :=
  (reads_next t ts).bind h

theorem reads_next_nil : Reads true next [] none [] := by
  rintro ⟨lexemes, ending, line⟩ h
  obtain ⟨hmap, hends⟩ := Prod.mk.inj h
  cases map_eq_nil_iff.mp hmap
  cases ending with
  | finished last => exact ⟨_, rfl, rfl⟩
  | flawed flaw last => cases hends

theorem reads_peek (h : ts = [] → ends = true) : Reads ends peek ts ts.head? ts := by
  rintro ⟨lexemes, ending, line⟩ hview
  obtain ⟨hmap, hends⟩ := Prod.mk.inj hview
  cases hmap
  cases lexemes with
  | nil =>
    cases ending with
    | finished last => exact ⟨_, rfl, hview⟩
    | flawed flaw last => cases hends.trans (h rfl)
  | cons lexeme rest => exact ⟨_, rfl, hview⟩

theorem reads_peek_cons (t : Token) (ts : List Token) :
    Reads ends peek (t :: ts) (some t) (t :: ts) :=
  reads_peek (by simp)

theorem reads_expect (mark : Mark) (ts : List Token) :
    Reads ends (expect mark) (.mark mark :: ts) () ts := by
  refine .next ?_
  rw [if_pos rfl]
  exact reads_pure _ _

theorem reads_identifier (name : Name) (ts : List Token) :
    Reads ends identifier (.word name :: ts) name ts :=
  .next (reads_pure _ _)

/-- What follows can be looked at, and is no operator that binds at least as tightly as `level`. -/
def Clear (ends : Bool) (level : Nat) (ts : List Token) : Prop :=
  (ts = [] → ends = true) ∧
    ∀ op own, ts.head? = some (.mark (.op op)) → op.level? = some own → own < level

theorem Clear.mono {level level' : Nat} (h : Clear ends level ts) (hle : level ≤ level') :
    Clear ends level' ts :=
  ⟨h.1, fun op own hhead hown => Nat.lt_of_lt_of_le (h.2 op own hhead hown) hle⟩

theorem clear_cons (h : ∀ op, t ≠ .mark (.op op)) (level : Nat) : Clear ends level (t :: ts) :=
  ⟨by simp, fun op _ hhead _ => absurd (Option.some.inj hhead) (h op)⟩

section

variable {operand : Reader Expr} {level fuel : Nat} {e left right : Expr} {op : Op}

theorem reads_operands_of_clear (h : Clear ends level ts) (hfuel : ts.length < fuel) :
    Reads ends (operands operand level fuel e) ts e ts := by
  obtain ⟨fuel, rfl⟩ := exists_succ hfuel
  refine (reads_peek h.1).bind ?_
  split
  · rename_i op hhead
    have hother : op.level? ≠ some level := fun hown =>
      Nat.lt_irrefl _ (h.2 op level hhead hown)
    rw [if_neg hother]
    exact reads_pure _ _
  · exact reads_pure _ _

theorem reads_operands_cons (hop : op.level? = some level) (hright : Reads ends operand ts right mid)
    (hmore : Reads ends (operands operand level fuel (.binary op left right)) mid e rest) :
    Reads ends (operands operand level (fuel + 1) left) (.mark (.op op) :: ts) e rest := by
  refine (reads_peek_cons _ _).bind ?_
  simp only [if_pos hop]
  exact .next (hright.bind hmore)

end

/-- The tokens are read as the expression where an operand without a sign is wanted. -/
def ReadsPrimary (ends : Bool) (ts : List Token) (e : Expr) : Prop :=
  ∀ fuel rest, (ts ++ rest).length ≤ fuel → Reads ends (primary (expr fuel)) (ts ++ rest) e rest

/-- The tokens are read as the expression where `above` levels bind as loosely as its place
allows. -/
def ReadsAt (ends : Bool) (ts : List Token) (e : Expr) (above : Nat) : Prop :=
  ∀ fuel rest, (ts ++ rest).length ≤ fuel → Clear ends (levelCount - above) rest →
    Reads ends (leveled (fuel + 1) (expr fuel) above) (ts ++ rest) e rest

/-- The tokens are read as the first operand of what their level reads behind them. -/
def GoesOn (ends : Bool) (ts : List Token) (e : Expr) (above : Nat) : Prop :=
  ∀ fuel rest whole rest', (ts ++ rest).length ≤ fuel → Clear ends (levelCount - above) rest →
    (∀ more, rest.length < more → Reads ends
      (operands (leveled (fuel + 1) (expr fuel) above) (levelCount - (above + 1)) more e)
        rest whole rest') →
    Reads ends (leveled (fuel + 1) (expr fuel) (above + 1)) (ts ++ rest) whole rest'

section

variable {above : Nat} {e left right : Expr} {op : Op} {us : List Token}
variable {fuel : Nat}

theorem GoesOn.readsAt (h : GoesOn ends ts e above) : ReadsAt ends ts e (above + 1) := by
  intro fuel rest hfuel hclear
  exact h fuel rest e rest hfuel (hclear.mono (by omega)) fun _ hmore => reads_operands_of_clear hclear hmore

theorem ReadsAt.goesOn (h : ReadsAt ends ts e above) : GoesOn ends ts e above := by
  intro fuel rest whole rest' hfuel hclear hmore
  refine (h fuel rest hfuel hclear).bind (hmore (fuel + 1) ?_)
  simp only [length_append] at hfuel
  omega

theorem ReadsAt.up (h : ReadsAt ends ts e above) (steps : Nat) :
    ReadsAt ends ts e (above + steps) := by
  induction steps with
  | zero => exact h
  | succ n ih => exact ih.goesOn.readsAt

/-- An operator goes on with its left operand, and what is read next is its right one. -/
theorem GoesOn.binary (hop : op.level? = some (levelCount - (above + 1))) (habove : above < levelCount)
    (hleft : GoesOn ends ts left above) (hright : ReadsAt ends us right above) :
    GoesOn ends (ts ++ [.mark (.op op)] ++ us) (.binary op left right) above := by
  intro fuel rest whole rest' hfuel hclear hmore
  simp only [append_assoc, cons_append] at hfuel ⊢
  refine hleft fuel _ whole rest' hfuel ⟨by simp, ?_⟩ ?_
  · intro op' own hhead hown
    cases hhead
    cases hop.symm.trans hown
    omega
  · intro more hlonger
    obtain ⟨more, rfl⟩ := exists_succ hlonger
    simp only [length_append, length_cons] at hlonger
    refine reads_operands_cons hop (hright fuel rest ?_ hclear) (hmore more (by omega))
    simp only [length_append, length_cons] at hfuel ⊢
    omega

theorem ReadsAt.expr (h : ReadsAt ends ts e levelCount) (hfuel : (ts ++ rest).length < fuel)
    (hclear : Clear ends 0 rest) : Reads ends (expr fuel) (ts ++ rest) e rest := by
  obtain ⟨fuel, rfl⟩ := exists_succ hfuel
  exact h fuel rest (Nat.le_of_lt_succ hfuel) hclear

theorem reads_minusSigns_zero (h : t ≠ .mark (.op .sub)) :
    Reads ends (minusSigns (fuel + 1)) (t :: ts) 0 (t :: ts) := by
  refine (reads_peek_cons _ _).bind ?_
  rw [if_neg (by simpa using h)]
  exact reads_pure _ _

theorem ReadsPrimary.readsAt (h : ReadsPrimary ends (t :: ts) e) (ht : t ≠ .mark (.op .sub)) :
    ReadsAt ends (t :: ts) e 0 := by
  intro fuel rest hfuel _
  exact (reads_minusSigns_zero ht).bind ((h fuel rest hfuel).bind_pure _)

/-- An address in brackets. -/
theorem ReadsAt.index (h : ReadsAt ends ts e levelCount)
    (hfuel : (ts ++ .mark .closeBracket :: rest).length < fuel) :
    Reads ends (index (Reader.expr fuel))
      (.mark .openBracket :: (ts ++ .mark .closeBracket :: rest)) e rest :=
  (reads_expect _ _).bind
    ((h.expr hfuel (clear_cons (by simp) 0)).bind ((reads_expect _ _).bind_pure _))

theorem ReadsAt.mem (h : ReadsAt ends ts e levelCount) :
    ReadsPrimary ends ([.word "mem", .mark .openBracket] ++ ts ++ [.mark .closeBracket]) (.mem e) := by
  intro fuel rest hfuel
  simp only [append_assoc, cons_append, nil_append, length_cons] at hfuel ⊢
  refine .next ?_
  simp only [if_true]
  exact (h.index (by omega)).bind_pure _

theorem ReadsAt.paren (h : ReadsAt ends ts e levelCount) :
    ReadsPrimary ends ([.mark .openParen] ++ ts ++ [.mark .closeParen]) e := by
  intro fuel rest hfuel
  simp only [append_assoc, cons_append, nil_append, length_cons] at hfuel ⊢
  have hinner : Reads ends (Reader.expr fuel) (ts ++ .mark .closeParen :: rest) e
      (.mark .closeParen :: rest) := h.expr (by omega) (clear_cons (by simp) 0)
  exact .next (hinner.bind ((reads_expect _ _).bind_pure _))

/-- One sign, and the number that is negated. -/
theorem readsAt_negative (v : Int64) :
    ReadsAt ends [.mark (.op .sub), .number v] (.const (-v)) 0 := by
  intro fuel rest hfuel _
  obtain ⟨fuel, rfl⟩ := exists_succ (n := 0) (Nat.lt_of_lt_of_le (by simp) hfuel)
  have hsigns : Reads ends (minusSigns (fuel + 1 + 1)) (.mark (.op .sub) :: .number v :: rest) 1
      (.number v :: rest) := by
    refine (reads_peek_cons _ _).bind ?_
    simp only [if_true]
    exact .next ((reads_minusSigns_zero (by simp)).bind_pure (· + 1))
  have hprimary : Reads ends (primary (Reader.expr (fuel + 1))) (.number v :: rest) (.const v) rest :=
    .next (reads_pure _ _)
  exact hsigns.bind (hprimary.bind_pure _)

end

end Reader

/-- The tokens stand for the expression where what binds weaker than `level` needs parentheses,
and no sign may stand above the last level. -/
inductive Forms : Nat → List Token → Expr → Prop
  | number {level : Nat} {v : Int64} : Forms level [.number v] (.const v)
  | negative {level : Nat} {v : Int64} (h : level ≤ levelCount) :
      Forms level [.mark (.op .sub), .number v] (.const (-v))
  | name {level : Nat} {w : Name} : Forms level [.mark .at, .word w] (.name w)
  | temp {level : Nat} {w : Name} (h : w ≠ "mem") : Forms level [.word w] (.temp w)
  | mem {level : Nat} {ts : List Token} {e : Expr} (h : Forms 0 ts e) :
      Forms level ([.word "mem", .mark .openBracket] ++ ts ++ [.mark .closeBracket]) (.mem e)
  | paren {level : Nat} {ts : List Token} {e : Expr} (h : Forms 0 ts e) :
      Forms level ([.mark .openParen] ++ ts ++ [.mark .closeParen]) e
  | binary {level own : Nat} {op : Op} {ts us : List Token} {l r : Expr}
      (hop : op.level? = some own) (hle : level ≤ own) (hl : Forms own ts l)
      (hr : Forms (own + 1) us r) :
      Forms level (ts ++ [.mark (.op op)] ++ us) (.binary op l r)

/-- An expression that can have been read has its tokens stand for it. -/
theorem Expr.Legible.forms {e : Expr} (h : e.Legible) {level : Nat}
    (hsign : ∀ v, e = .const v → 0 ≤ v ∨ level ≤ levelCount) :
    Forms level (e.tokens level) e := by
  induction e generalizing level with
  | const v =>
    rw [Expr.tokens]
    by_cases hv : 0 ≤ v
    · rw [if_pos hv]
      exact .number
    · grind [Forms.negative, Int64.neg_neg]
  | name symbol => exact .name
  | temp t => exact .temp h.2
  | mem address ih => exact .mem (ih h fun _ _ => .inr (Nat.zero_le _))
  | binary op left right ihl ihr =>
    obtain ⟨own, hown⟩ := Option.isSome_iff_exists.mp h.1
    have hlt := Op.level?_lt hown
    have hl := ihl h.2.1 fun _ _ => .inr (Nat.le_of_lt hlt)
    have hr := ihr h.2.2 fun _ _ => .inr hlt
    simp only [Expr.tokens, hown]
    split
    · exact .paren (.binary hown (Nat.zero_le _) hl hr)
    · exact .binary hown (by omega) hl hr
  | absent => cases h

theorem Expr.tokens_succ_levelCount (e : Expr) : e.tokens (levelCount + 1) = e.tokens levelCount := by
  cases e with
  | binary op l r =>
    grind [Expr.tokens, Op.level?_lt, Nat.lt_succ_of_lt]
  | _ => rfl

namespace Reader

/-- How tokens that stand for an expression are read: without a sign above the last level, and at
each level where their operators may stand bare. -/
structure Readable (ends : Bool) (level : Nat) (ts : List Token) (e : Expr) : Prop where
  primary : levelCount < level → ReadsPrimary ends ts e
  at_level : ∀ above, levelCount ≤ level + above → ReadsAt ends ts e above
  goesOn : ∀ above, levelCount ≤ level + above + 1 → GoesOn ends ts e above

variable {ends : Bool} {level : Nat} {t : Token} {ts rest : List Token} {e : Expr}

theorem ReadsAt.readable (hzero : ReadsAt ends ts e 0)
    (hprimary : levelCount < level → ReadsPrimary ends ts e) : Readable ends level ts e := by
  have hall (above : Nat) : ReadsAt ends ts e above := by
    have := hzero.up above
    rwa [Nat.zero_add] at this
  exact ⟨hprimary, fun above _ => hall above, fun above _ => (hall above).goesOn⟩

theorem ReadsPrimary.readable (h : ReadsPrimary ends (t :: ts) e) (ht : t ≠ .mark (.op .sub)) :
    Readable ends level (t :: ts) e :=
  (h.readsAt ht).readable fun _ => h

/-- Tokens that stand for an expression are read as that expression. -/
theorem readable_of_forms (h : Forms level ts e) : Readable ends level ts e := by
  induction h with
  | number => exact ReadsPrimary.readable (fun _ _ _ => .next (reads_pure _ _)) (by simp)
  | negative h => exact (readsAt_negative _).readable fun hlt => absurd hlt (by omega)
  | name =>
    exact ReadsPrimary.readable (fun _ _ _ => .next ((reads_identifier _ _).bind_pure _)) (by simp)
  | temp h =>
    refine ReadsPrimary.readable (fun _ _ _ => .next ?_) (by simp)
    simp only [if_neg h]
    exact reads_pure _ _
  | mem _ ih => exact (ih.at_level levelCount (by omega)).mem.readable (by simp)
  | paren _ ih => exact (ih.at_level levelCount (by omega)).paren.readable (by simp)
  | @binary level own op ts us l r hop hle _ _ ihl ihr =>
    have hlt := Op.level?_lt hop
    obtain ⟨below, hbelow⟩ : ∃ below, levelCount = own + (below + 1) :=
      ⟨levelCount - own - 1, by omega⟩
    have hlevel : levelCount - (below + 1) = own := by omega
    have hgoes : GoesOn ends (ts ++ [.mark (.op op)] ++ us) (.binary op l r) below :=
      .binary (by rw [hlevel, hop]) (by omega) (ihl.goesOn below (by omega))
        (ihr.at_level below (by omega))
    have hat (above : Nat) (h : below + 1 ≤ above) :
        ReadsAt ends (ts ++ [.mark (.op op)] ++ us) (.binary op l r) above := by
      have := hgoes.readsAt.up (above - (below + 1))
      rwa [Nat.add_sub_cancel' h] at this
    refine ⟨fun h => absurd h (by omega), fun above h => hat above (by omega), fun above h => ?_⟩
    by_cases hown : above = below
    · exact hown ▸ hgoes
    · exact (hat above (by omega)).goesOn

theorem readsAt_of_legible (h : e.Legible) : ReadsAt ends (e.tokens 0) e levelCount :=
  (readable_of_forms (h.forms fun _ _ => .inr (Nat.zero_le _))).at_level _ (by omega)

theorem reads_expr {fuel : Nat} (h : e.Legible) (hfuel : (e.tokens 0 ++ rest).length < fuel)
    (hclear : Clear ends 0 rest) : Reads ends (expr fuel) (e.tokens 0 ++ rest) e rest :=
  (readsAt_of_legible h).expr hfuel hclear

end Reader

/-- The printed expression begins with a temporary that has the name of the word for calls. -/
def Expr.beginsWithCall (level : Nat) : Expr → Bool
  | .temp t => t = "call"
  | .binary op left _ =>
    match op.level? with
    | some own => !(own < level) && left.beginsWithCall own
    | none => false
  | _ => false

/-- Statements whose printed text stands for themselves: a negative constant cannot be called
by its numeral, and no value that is moved may begin with the word for calls. -/
def Stmt.Faithful : Stmt Expr → Prop
  | .move _ src => src.beginsWithCall 0 = false
  | .call func _ _ => ∀ v, func = .const v → 0 ≤ v
  | _ => True

/-- The first token of an expression: never a closing parenthesis, and the word for calls only
if a temporary of that name comes first. -/
theorem Expr.Legible.head?_tokens {e : Expr} (h : e.Legible) (level : Nat) : ∃ t ts,
    e.tokens level = t :: ts ∧ t ≠ .mark .closeParen ∧
      (t = .word "call" ↔ e.beginsWithCall level = true) := by
  induction e generalizing level with
  | const v =>
    by_cases hv : 0 ≤ v
    · exact ⟨_, _, by rw [Expr.tokens, if_pos hv], by simp [Expr.beginsWithCall]⟩
    · exact ⟨_, _, by rw [Expr.tokens, if_neg hv], by simp [Expr.beginsWithCall]⟩
  | name symbol | temp t => exact ⟨_, _, rfl, by simp [Expr.beginsWithCall]⟩
  | mem address =>
    refine ⟨_, _, rfl, by simp, ?_⟩
    have : (("mem" : Bytes)) ≠ "call" := by decide
    simp [Expr.beginsWithCall, this]
  | binary op left right ihl _ =>
    obtain ⟨own, hown⟩ := Option.isSome_iff_exists.mp h.1
    simp only [Expr.tokens, Expr.beginsWithCall, hown]
    by_cases hlt : own < level
    · exact ⟨_, _, by rw [if_pos hlt]; rfl, by simp [hlt]⟩
    · obtain ⟨t, ts, htokens, hclose, hcall⟩ := ihl h.2.1 own
      exact ⟨t, _, by rw [if_neg hlt, htokens]; rfl, hclose, by simp [hlt, hcall]⟩
  | absent => cases h

namespace Reader

variable {α β : Type} {r : Reader α} {f : α → Reader β} {a : α} {b : β}
  {ts mid rest : List Token}
variable {fuel : Nat}

theorem reads_callArgs {e : Expr} {args : List Expr} (h : ∀ x ∈ e :: args, x.Legible)
    (hfuel : (commaTokens ((e :: args).map (Expr.tokens 0)) ++ .mark .closeParen :: rest).length < fuel) :
    Reads true (callArgs fuel)
      (commaTokens ((e :: args).map (Expr.tokens 0)) ++ .mark .closeParen :: rest) (e :: args) rest := by
  induction args generalizing e fuel with
  | nil =>
    have he := h e mem_cons_self
    obtain ⟨fuel, rfl⟩ := exists_succ hfuel
    simp only [map_cons, map_nil, commaTokens_singleton] at hfuel ⊢
    refine (reads_expr he hfuel (clear_cons (by simp) 0)).bind ?_
    exact .next (reads_pure _ _)
  | cons e' args ih =>
    obtain ⟨he, hargs⟩ := forall_mem_cons.mp h
    obtain ⟨fuel, rfl⟩ := exists_succ hfuel
    have htokens : commaTokens ((e :: e' :: args).map (Expr.tokens 0)) ++
        .mark .closeParen :: rest = e.tokens 0 ++ .mark .comma ::
          (commaTokens ((e' :: args).map (Expr.tokens 0)) ++ .mark .closeParen :: rest) := by
      simp
    rw [htokens] at hfuel ⊢
    refine (reads_expr he hfuel (clear_cons (by simp) 0)).bind ?_
    refine .next ?_
    refine (ih hargs ?_).bind_pure _
    simp only [length_append, length_cons] at hfuel ⊢
    omega

/-- The tokens of a call behind its word. -/
def callTokens (func : Expr) (args : List Expr) : List Token :=
  func.tokens levelCount ++ .mark .openParen ::
    (commaTokens (args.map (Expr.tokens 0)) ++ [.mark .closeParen])

theorem reads_call {func : Expr} {args : List Expr} {result : Option Name} (hfunc : func.Legible)
    (hargs : ∀ e ∈ args, e.Legible) (hsign : ∀ v, func = .const v → 0 ≤ v)
    (hfuel : (callTokens func args ++ rest).length < fuel) :
    Reads true (call fuel result) (callTokens func args ++ rest) (.call func args result) rest := by
  have hprimary {ts : List Token} (hlen : (func.tokens levelCount ++ ts).length ≤ fuel) :
      Reads true (primary (expr fuel)) (func.tokens levelCount ++ ts) func ts := by
    have hforms : Forms (levelCount + 1) (func.tokens (levelCount + 1)) func :=
      hfunc.forms fun v hv => .inl (hsign v hv)
    rw [func.tokens_succ_levelCount] at hforms
    exact (readable_of_forms hforms).primary (Nat.lt_succ_self _) fuel ts hlen
  simp only [callTokens, append_assoc, cons_append] at hfuel ⊢
  refine (hprimary (Nat.le_of_lt hfuel)).bind ((reads_expect _ _).bind ((reads_peek fun _ => rfl).bind ?_))
  cases args with
  | nil =>
    simp only [map_nil, commaTokens_nil, nil_append, head?_cons, if_true]
    exact .next (reads_pure _ _)
  | cons e args =>
    obtain ⟨t, ts, htokens, hclose, _⟩ := (hargs e mem_cons_self).head?_tokens 0
    have hhead : ∃ us, commaTokens ((e :: args).map (Expr.tokens 0)) = t :: us := by
      cases args with
      | nil => exact ⟨ts, by simp [htokens]⟩
      | cons _ _ => exact ⟨_, by simp [htokens]; rfl⟩
    obtain ⟨us, hus⟩ := hhead
    have hother : (commaTokens ((e :: args).map (Expr.tokens 0)) ++
        Token.mark .closeParen :: ([] ++ rest)).head? ≠ some (.mark .closeParen) := by
      rw [hus]
      simp [hclose]
    rw [if_neg hother]
    refine (reads_callArgs hargs ?_).bind_pure _
    simp only [length_append, length_cons, length_nil] at hfuel ⊢
    omega

theorem call_tokens (func : Expr) (args : List Expr) (result : Option Name) :
    (Stmt.call func args result).tokens =
      (match result with
        | some name => [.word name, .mark .assign]
        | none => []) ++ .word "call" :: callTokens func args := by
  cases result <;> simp [Stmt.tokens, callTokens]

section

variable {s : Stmt Expr} {returns : Bool} {fuel : Nat}

/-- The tokens of a statement begin with a word. -/
theorem exists_tokens_eq (h : s.Legible returns) : ∃ w ts, s.tokens = .word w :: ts := by
  cases s with
  | call func args result => cases result <;> exact ⟨_, _, rfl⟩
  | ret value => cases value <;> exact ⟨_, _, rfl⟩
  | absent => cases h
  | _ => exact ⟨_, _, rfl⟩

/-- What stands behind a name that begins no other kind of statement. -/
theorem gives_stmt_target {Q : Except Fault (Stmt Expr × Tokens) → Prop} {name : Name}
    (hname : IsTarget name) {m : Mark}
    (h : Gives true (match some (Token.mark m) with
      | some (.mark .colon) => (pure (.label name) : Reader (Stmt Expr))
      | some (.mark .assign) => do
        if (← peek) = some (.word "call") then
          let _ ← next
          call fuel (some name)
        else return .move name (← expr fuel)
      | got => fail (.wanted .assignOrColon got)) ts Q) :
    Gives true (stmt fuel returns) (.word name :: .mark m :: ts) Q := by
  have hother : ∀ w ∈ statementWords, name ≠ w := fun w hw heq => hname.2 (heq ▸ hw)
  refine .next ?_
  simp only [if_neg (hother "goto" (by decide)), if_neg (hother "if" (by decide)),
    if_neg (hother "return" (by decide)), if_neg (hother "call" (by decide)),
    if_neg (hother "mem" (by decide))]
  exact .next h

/-- A call with a result. -/
theorem gives_stmt_call {Q : Except Fault (Stmt Expr × Tokens) → Prop} {name : Name}
    (hname : IsTarget name) (h : Gives true (call fuel (some name)) ts Q) :
    Gives true (stmt fuel returns) (.word name :: .mark .assign :: .word "call" :: ts) Q := by
  refine gives_stmt_target hname ((reads_peek_cons _ _).bind ?_)
  rw [if_pos (by rfl)]
  exact .next h

/-- A faithful statement is read back from its tokens. -/
theorem reads_stmt (h : s.Legible returns) (hfaithful : s.Faithful)
    (hfuel : (s.tokens ++ rest).length < fuel) (hclear : Clear true 0 rest) :
    Reads true (stmt fuel returns) (s.tokens ++ rest) s rest := by
  cases s with
  | move dest src =>
    obtain ⟨t, ts, htokens, _, hcall⟩ := h.2.head?_tokens 0
    have hother : (src.tokens 0 ++ rest).head? ≠ some (.word "call") := by
      rw [htokens]
      intro heq
      cases heq
      exact absurd (hcall.mp rfl) (by simp [show src.beginsWithCall 0 = false from hfaithful])
    simp only [Stmt.tokens, cons_append, nil_append, length_cons] at hfuel ⊢
    refine gives_stmt_target h.1 ((reads_peek fun _ => rfl).bind ?_)
    rw [if_neg hother]
    exact (reads_expr h.2 (by omega) hclear).bind_pure _
  | store address src =>
    simp only [Stmt.tokens, append_assoc, cons_append, nil_append,
      length_cons, length_append] at hfuel ⊢
    have haddress {ts : List Token} (hlen : (address.tokens 0).length + (ts.length + 1) < fuel) :
        Reads true (index (expr fuel))
          (.mark .openBracket :: (address.tokens 0 ++ .mark .closeBracket :: ts)) address ts :=
      (readsAt_of_legible h.1).index (by simpa using hlen)
    have hsrc : Reads true (expr fuel) (src.tokens 0 ++ rest) src rest :=
      reads_expr h.2 (by simp only [length_append]; omega) hclear
    refine .next ((haddress ?_).bind ((reads_expect _ _).bind (hsrc.bind_pure _)))
    simp only [length_cons, length_append]
    omega
  | call func args result =>
    obtain ⟨hfunc, hargs, hresult⟩ := h
    rw [call_tokens] at hfuel ⊢
    cases result with
    | none =>
      refine .next (reads_call hfunc hargs hfaithful ?_)
      simp at hfuel ⊢
      omega
    | some name =>
      refine gives_stmt_call (hresult name rfl) (reads_call hfunc hargs hfaithful ?_)
      simp at hfuel ⊢
      omega
  | jump target => exact .next ((reads_identifier _ _).bind_pure _)
  | label l => exact gives_stmt_target h (reads_pure _ _)
  | branch cond target =>
    simp only [Stmt.tokens, append_assoc, cons_append, nil_append,
      length_cons, length_append] at hfuel ⊢
    have hcond : Reads true (expr fuel) (cond.tokens 0 ++ .word "goto" :: .word target :: rest) cond
        (.word "goto" :: .word target :: rest) := by
      refine reads_expr h.1 ?_ (clear_cons (by simp) 0)
      simp only [length_append, length_cons]
      omega
    refine .next (hcond.bind (.next ?_))
    rw [if_pos rfl]
    exact (reads_identifier _ _).bind_pure _
  | ret value =>
    obtain ⟨hreturns, hvalue⟩ := h
    subst hreturns
    cases value with
    | none => exact .next (reads_pure _ _)
    | some e =>
      simp only [Stmt.tokens, cons_append, nil_append, length_cons] at hfuel ⊢
      refine .next ?_
      exact (reads_expr (hvalue e rfl) (by omega) hclear).bind_pure _
  | absent => cases h

/-- What is read behind the word for calls is no move. -/
theorem misses_call {result : Option Name} {dest : Name} {src : Expr} :
    Misses true (call fuel result) ts (.move dest src) := by
  intro tokens _ tokens' hread
  obtain ⟨_, _, _, hread⟩ := bind_eq_ok_iff.mp hread
  obtain ⟨_, _, _, hread⟩ := bind_eq_ok_iff.mp hread
  obtain ⟨_, _, _, hread⟩ := bind_eq_ok_iff.mp hread
  split at hread
  · obtain ⟨_, _, _, hread⟩ := bind_eq_ok_iff.mp hread
    cases hread
  · obtain ⟨_, _, _, hread⟩ := bind_eq_ok_iff.mp hread
    cases hread

/-- A statement that is not faithful is not read back from its tokens. -/
theorem misses_stmt (h : s.Legible returns) (hfaithful : ¬ s.Faithful) :
    Misses true (stmt fuel returns) (s.tokens ++ rest) s := by
  cases s with
  | move dest src =>
    obtain ⟨t, ts, htokens, _, hcall⟩ := h.2.head?_tokens 0
    have hword := hcall.mpr (Bool.of_not_eq_false hfaithful)
    simp only [Stmt.tokens, cons_append, nil_append, htokens, hword]
    exact gives_stmt_call h.1 misses_call
  | call func args result =>
    have hneg : ∃ v, func = .const v ∧ ¬ 0 ≤ v := by
      by_contra hall
      push Not at hall
      exact hfaithful hall
    obtain ⟨v, rfl, hv⟩ := hneg
    have hrefuses (result : Option Name) :
        Refuses true (call fuel result) (callTokens (.const v) args ++ rest) := by
      simp only [callTokens, Expr.tokens, if_neg hv]
      exact Refuses.bind (.next fun _ _ => ⟨_, rfl⟩)
    rw [call_tokens]
    cases result with
    | none => exact Refuses.misses (.next (hrefuses none))
    | some name => exact Refuses.misses (gives_stmt_call (h.2.2 name rfl) (hrefuses (some name)))
  | _ => exact absurd trivial hfaithful

end

/-- From these tokens the reader gives `a` and leaves `rest` if `P` holds, and does not give `a`
otherwise. -/
structure Settles (r : Reader α) (ts : List Token) (a : α) (rest : List Token) (P : Prop) : Prop where
  reads : P → Reads true r ts a rest
  misses : ¬ P → Misses true r ts a

section

variable {P P' : Prop}

theorem Settles.congr (h : Settles r ts a rest P) (hiff : P ↔ P') : Settles r ts a rest P' :=
  ⟨fun hP' => h.reads (hiff.mpr hP'), fun hP' => h.misses fun hP => hP' (hiff.mp hP)⟩

theorem Reads.settles (hr : Reads true r ts a mid) (hf : Settles (f a) mid b rest P) :
    Settles (r >>= f) ts b rest P :=
  ⟨fun hP => hr.bind (hf.reads hP), fun hP => hr.bind (hf.misses hP)⟩

theorem Settles.bind_pure (hr : Settles r ts a rest P) {g : α → β} (hg : ∀ x, g x = g a → x = a) :
    Settles (r >>= fun x => pure (g x)) ts (g a) rest P := by
  refine ⟨fun h => (hr.reads h).bind_pure g, fun h => (hr.misses h).bind ?_⟩
  intro x tokens tokens' heq
  obtain ⟨hvalue, _⟩ := Prod.mk.inj (Except.ok.inj heq)
  exact hg x hvalue

/-- A value made of two parts is read if and only if both parts are. -/
theorem Settles.both {γ : Type} {q : Reader β} {g : α → β → γ} (hr : Settles r ts a mid P)
    (hq : Settles q mid b rest P') (hg : ∀ x y, g x y = g a b → x = a ∧ y = b) :
    Settles (r >>= fun x => q >>= fun y => pure (g x y)) ts (g a b) rest (P ∧ P') := by
  have hrest := hq.bind_pure (g := g a) fun y heq => (hg a y heq).2
  refine ⟨fun h => (hr.reads h.1).bind (hrest.reads h.2), fun h => ?_⟩
  by_cases hP : P
  · exact (hr.reads hP).bind (hrest.misses fun hP' => h ⟨hP, hP'⟩)
  · refine (hr.misses hP).bind fun x tokens tokens' heq => ?_
    obtain ⟨y, _, _, hpure⟩ := bind_eq_ok_iff.mp heq
    obtain ⟨hvalue, _⟩ := Prod.mk.inj (Except.ok.inj hpure)
    exact (hg x y hvalue).1

theorem Settles.inside (hr : Settles r ts a rest P) (name : Name) :
    Settles (inside name r) ts a rest P := by
  refine ⟨fun h tokens hstand => ?_, fun h tokens hstand final hread => ?_⟩
  · obtain ⟨tokens', hread, hrest⟩ := hr.reads h tokens hstand
    exact ⟨tokens', by rw [Reader.inside, hread], hrest⟩
  · have hmiss := hr.misses h tokens hstand final
    rw [Reader.inside] at hread
    cases hresult : r tokens with
    | ok p =>
      rw [hresult] at hread hmiss
      exact hmiss hread
    | error fault =>
      rw [hresult] at hread
      cases hread

end

section

variable {s : Stmt Expr} {stmts : List (Stmt Expr)} {returns : Bool} {fuel : Nat}

theorem settles_stmt (h : s.Legible returns) (hfuel : (s.tokens ++ rest).length < fuel)
    (hclear : Clear true 0 rest) : Settles (stmt fuel returns) (s.tokens ++ rest) s rest s.Faithful :=
  ⟨fun hfaithful => reads_stmt h hfaithful hfuel hclear, fun hfaithful => misses_stmt h hfaithful⟩

theorem clear_body (h : ∀ s ∈ stmts, s.Legible returns) :
    Clear true 0 (stmts.flatMap Stmt.tokens ++ .mark .closeBrace :: rest) := by
  cases stmts with
  | nil => exact clear_cons (by simp) 0
  | cons s stmts =>
    grind [exists_tokens_eq, mem_cons_self, clear_cons]

/-- A body is read back from its tokens if and only if each statement is. -/
theorem settles_body (name : Name) (h : ∀ s ∈ stmts, s.Legible returns)
    (hfuel : (stmts.flatMap Stmt.tokens ++ .mark .closeBrace :: rest).length < fuel) :
    Settles (body name returns fuel) (stmts.flatMap Stmt.tokens ++ .mark .closeBrace :: rest) stmts rest
      (∀ s ∈ stmts, s.Faithful) := by
  induction stmts generalizing fuel with
  | nil =>
    obtain ⟨fuel, rfl⟩ := exists_succ hfuel
    refine ⟨fun _ => ?_, fun hnot => absurd (by simp) hnot⟩
    exact (reads_peek_cons _ _).bind (.next (reads_pure _ _))
  | cons s stmts ih =>
    obtain ⟨hs, hstmts⟩ := forall_mem_cons.mp h
    obtain ⟨w, ts, htokens⟩ := exists_tokens_eq hs
    have hpos : 0 < s.tokens.length := by simp [htokens]
    obtain ⟨fuel, rfl⟩ := exists_succ hfuel
    simp only [flatMap_cons, append_assoc] at hfuel ⊢
    have hfirst := (settles_stmt hs hfuel (clear_body hstmts)).inside name
    have hlonger : (stmts.flatMap Stmt.tokens ++ .mark .closeBrace :: rest).length < fuel := by
      simp only [length_append] at hfuel ⊢
      omega
    have hmore := ih hstmts hlonger
    have hboth := hfirst.both hmore (g := List.cons) (by simp)
    refine Settles.congr ?_ (forall_mem_cons).symm
    rw [htokens] at hboth ⊢
    exact (reads_peek_cons _ _).settles hboth

end

theorem reads_moreArgs {names : List Name} (hfuel : names.length < fuel) :
    Reads true (moreArgs fuel)
      (names.flatMap (fun name => [.mark .comma, .word name]) ++ .mark .closeParen :: rest) names rest := by
  induction names generalizing fuel with
  | nil =>
    obtain ⟨fuel, rfl⟩ := exists_succ hfuel
    exact .next (reads_pure _ _)
  | cons name names ih =>
    obtain ⟨fuel, rfl⟩ := exists_succ hfuel
    refine .next (.next ?_)
    exact (ih (by simp at hfuel; omega)).bind_pure _

theorem commaTokens_words (name : Name) (names : List Name) :
    commaTokens ((name :: names).map fun w => [.word w]) =
      .word name :: names.flatMap fun w => [.mark .comma, .word w] := by
  induction names generalizing name with
  | nil => rfl
  | cons next names ih =>
    simp_all

theorem reads_args {names : List Name} (hfuel : names.length < fuel) :
    Reads true (args fuel)
      (commaTokens (names.map fun w => [.word w]) ++ .mark .closeParen :: rest) names rest := by
  cases names with
  | nil => exact .next (reads_pure _ _)
  | cons name names =>
    rw [commaTokens_words]
    refine .next ?_
    exact (reads_moreArgs (by simp at hfuel; omega)).bind_pure _

end Reader

/-- Functions of faithful statements. -/
def Func.Faithful (fn : SourceFunc) : Prop := ∀ s ∈ fn.body, s.Faithful

/-- Modules of faithful functions. -/
def Module.Faithful (m : SourceModule) : Prop := ∀ fn ∈ m.funcs, fn.Faithful

namespace Reader

variable {ts rest : List Token}
variable {fuel : Nat}

theorem length_le_commaTokens (names : List Name) :
    names.length ≤ (commaTokens (names.map fun w => [Token.word w])).length := by
  cases names with
  | nil => exact Nat.le_refl _
  | cons name names =>
    rw [commaTokens_words]
    simp
    omega

/-- A function is read back from its tokens if and only if its statements are. -/
theorem settles_func {fn : SourceFunc} (h : fn.Legible)
    (htokens : fn.tokens ++ rest = .word "func" :: ts) (hfuel : ts.length < fuel) :
    Settles (func fuel) ts fn rest fn.Faithful := by
  have hts : ts = .word fn.name :: .mark .openParen ::
      (commaTokens (fn.args.map fun w => [.word w]) ++ .mark .closeParen ::
        ((if fn.returns then [.word "int"] else []) ++ .mark .openBrace ::
          (fn.body.flatMap Stmt.tokens ++ .mark .closeBrace :: rest))) := by
    simpa [Func.tokens] using htokens.symm
  subst hts
  simp only [length_cons, length_append] at hfuel
  have hnames := length_le_commaTokens fn.args
  have hlonger : (fn.body.flatMap Stmt.tokens ++ .mark .closeBrace :: rest).length < fuel := by
    simp only [length_append, length_cons]
    omega
  have hbody := settles_body fn.name h.body hlonger
  have hwhole := hbody.bind_pure (g := Func.mk fn.name fn.args fn.returns) fun x hx =>
    congrArg Func.body hx
  refine (reads_identifier _ _).settles ((reads_expect _ _).settles ?_)
  refine (reads_args (by omega)).settles ?_
  obtain ⟨name, args, returns, body⟩ := fn
  cases returns with
  | false =>
    refine (reads_next _ _).settles ((reads_pure _ _).settles ?_)
    simp only [if_true]
    exact hwhole
  | true =>
    refine (reads_next _ _).settles ((reads_next _ _).settles ((reads_pure _ _).settles ?_))
    simp only [if_true]
    exact hwhole

theorem reads_global (g : Global) :
    Reads true global (.word g.name :: .mark .assign :: .string g.content :: rest) g rest :=
  (reads_identifier _ _).bind ((reads_expect _ _).bind (.next (reads_pure _ _)))

theorem settles_funcs {funcs : List SourceFunc} (h : ∀ fn ∈ funcs, fn.Legible)
    (hfuel : (funcs.flatMap Func.tokens).length < fuel) :
    Settles (declarations fuel) (funcs.flatMap Func.tokens) { globals := [], funcs } []
      (∀ fn ∈ funcs, fn.Faithful) := by
  induction funcs generalizing fuel with
  | nil =>
    obtain ⟨fuel, rfl⟩ := exists_succ hfuel
    refine ⟨fun _ => ?_, fun hnot => absurd (by simp) hnot⟩
    exact reads_next_nil.bind (reads_pure _ _)
  | cons fn funcs ih =>
    obtain ⟨hfn, hfuncs⟩ := forall_mem_cons.mp h
    obtain ⟨fuel, rfl⟩ := exists_succ hfuel
    have htokens : ∃ ts, fn.tokens ++ funcs.flatMap Func.tokens = .word "func" :: ts :=
      ⟨_, rfl⟩
    obtain ⟨ts, hts⟩ := htokens
    simp only [flatMap_cons] at hfuel ⊢
    have hlength : fn.tokens.length + (funcs.flatMap Func.tokens).length = ts.length + 1 := by
      simpa using congrArg List.length hts
    have hpos : 0 < fn.tokens.length := by simp [Func.tokens]
    rw [hts] at hfuel ⊢
    simp only [length_cons] at hfuel
    have hts' : ts.length < fuel + 1 := by omega
    have hlonger : (funcs.flatMap Func.tokens).length < fuel := by omega
    have hfirst := settles_func hfn hts hts'
    have hmore := ih hfuncs hlonger
    have hboth := hfirst.both hmore (g := fun f m => { m with funcs := f :: m.funcs }) (by
      rintro x ⟨globals, more⟩ heq
      cases heq
      exact ⟨rfl, rfl⟩)
    refine Settles.congr ?_ (forall_mem_cons).symm
    refine (reads_next _ _).settles ?_
    exact hboth

/-- A module is read back from its tokens if and only if its functions are. -/
theorem settles_declarations {m : SourceModule} (h : m.Legible) (hfuel : m.tokens.length < fuel) :
    Settles (declarations fuel) m.tokens m [] m.Faithful := by
  obtain ⟨globals, funcs⟩ := m
  induction globals generalizing fuel with
  | nil => exact settles_funcs h.funcs hfuel
  | cons g globals ih =>
    obtain ⟨fuel, rfl⟩ := exists_succ hfuel
    have hlonger : (Module.mk globals funcs).tokens.length < fuel := by
      simp [Module.tokens, Global.tokens] at hfuel ⊢
      omega
    have hmore := ih ⟨(forall_mem_cons.mp h.globals).2, h.funcs⟩ hlonger
    have hwhole := hmore.bind_pure (g := fun m => { m with globals := g :: m.globals }) (by
      rintro ⟨more, funcs'⟩ heq
      cases heq
      rfl)
    exact (reads_next _ _).settles ((reads_global g).settles hwhole)

end Reader

theorem Module.ofTokens_eq (tokens : Tokens) : Module.ofTokens tokens =
    (Reader.declarations (tokens.lexemes.length + 1) tokens).map Prod.fst := rfl

theorem Module.ofTokens_eq_ok_iff {tokens : Tokens} {m : SourceModule} :
    Module.ofTokens tokens = .ok m ↔
      ∃ final, Reader.declarations (tokens.lexemes.length + 1) tokens = .ok (m, final) := by
  rw [Module.ofTokens_eq]
  cases Reader.declarations (tokens.lexemes.length + 1) tokens with
  | ok p => simp [Except.map, Prod.ext_iff]
  | error fault => simp [Except.map]

end X64Backend.Code
