import X64Backend.Proofs.Code.Legibility

/-! # Layout

A module is read from its tokens alone: two texts with the same tokens, that both end behind them
or both go wrong there, denote the same module or none. So blanks, line breaks and comments can be
put in wherever a token ends, without a change to what the text denotes.
-/

namespace X64Backend.Code

open Token List

/-- Texts with the same tokens denote the same module, or both denote none. -/
theorem Module.read_congr {text text' : Bytes}
    (h : (Tokens.ofText text).view = (Tokens.ofText text').view) :
    (Module.read text).toOption = (Module.read text').toOption := by
  have hlength : (Tokens.ofText text).lexemes.length = (Tokens.ofText text').lexemes.length := by
    simpa [Tokens.view, Tokens.viewOf] using congrArg (fun v => v.1.length) h
  have hsame := Reader.yields_declarations (Nat.lt_succ_self _) _ _ h
    (Tokens.legible_ofText text) rfl
  rw [Module.read, Module.read, Module.ofTokens_eq, Module.ofTokens_eq, ← hlength]
  generalize Reader.declarations _ (Tokens.ofText text) = x,
    Reader.declarations _ (Tokens.ofText text') = y at hsame
  cases hsame with
  | faults | value => rfl

/-- Blanks, line breaks, and comments that stand behind one of these and end with a line break. -/
inductive IsLayout : Bytes → Prop
  | nil : IsLayout []
  | blank {b : UInt8} {w : Bytes} (hb : isBlank b = true ∨ b = Bytes.ofChar '\n')
      (h : IsLayout w) : IsLayout (b :: w)
  | comment {b : UInt8} {c w : Bytes} (hb : isBlank b = true ∨ b = Bytes.ofChar '\n')
      (hc : Bytes.ofChar '\n' ∉ c) (h : IsLayout w) : IsLayout
        (b :: Bytes.ofChar '/' :: Bytes.ofChar '/' :: (c ++ Bytes.ofChar '\n' :: w))

section

variable {text w p q : Bytes} {ts : List Token}

/-- Layout has no tokens. -/
theorem IsLayout.spells (h : IsLayout w) (rest : Bytes) : Spells (w ++ rest) [] rest := by
  induction h with
  | nil => exact .nil rest
  | blank hb _ ih => exact .blank hb ih
  | comment hb hc _ ih =>
    simp only [cons_append, append_assoc]
    exact .blank hb (.comment hc ih)

/-- With layout put in behind some of its bytes, a text goes on as before or with a blank. -/
theorem IsLayout.resumes (h : IsLayout w) (p q : Bytes) : Resumes (p ++ q) (p ++ (w ++ q)) := by
  cases p with
  | cons b p => exact .inl rfl
  | nil =>
    cases h with
    | nil => exact .inl rfl
    | blank hb _ | comment hb _ _ =>
      right
      rintro b ⟨⟩
      exact hb

/-- Layout put in behind the tokens that a text begins with leaves these as they are. -/
theorem Token.Spells.insert (h : Spells text ts q) :
    ∃ p, text = p ++ q ∧ ∀ w, IsLayout w → Spells (p ++ (w ++ q)) ts q := by
  induction h with
  | nil q => exact ⟨[], rfl, fun w hw => hw.spells q⟩
  | blank hb _ ih =>
    obtain ⟨p, rfl, hp⟩ := ih
    exact ⟨_ :: p, rfl, fun w hw => .blank hb (hp w hw)⟩
  | @comment c _ _ _ hc _ ih =>
    obtain ⟨p, rfl, hp⟩ := ih
    refine ⟨Bytes.ofChar '/' :: Bytes.ofChar '/' :: (c ++ Bytes.ofChar '\n' :: p), by simp,
      fun w hw => ?_⟩
    simp only [cons_append, append_assoc]
    exact .comment hc (hp w hw)
  | @token b _ _ q _ _ hblank hbreak hslash hread _ ih =>
    obtain ⟨p, rfl, hp⟩ := ih
    obtain ⟨x, rfl, _, hx⟩ := read_spec hread
    refine ⟨b :: (x ++ p), by simp, fun w hw => ?_⟩
    have hresumes : Resumes (x ++ (p ++ q)) (x ++ (p ++ (w ++ q))) := by
      have := hw.resumes (x ++ p) q
      rwa [append_assoc, append_assoc] at this
    rw [cons_append, append_assoc]
    refine .token hblank hbreak ?_ (hx _ (hw.resumes p q)) (hp w hw)
    -- no second slash comes to stand behind a slash
    by_contra hcomment
    simp only [Bool.not_eq_false, Bool.and_eq_true, decide_eq_true_eq] at hcomment
    have hbefore : ∀ c ∈ (x ++ (p ++ q)).head?, c ≠ Bytes.ofChar '/' := by
      rintro c hc rfl
      rw [hcomment.1, show (x ++ (p ++ q)).head? = _ from hc] at hslash
      cases hslash
    exact hresumes.head (fun b hb => (blank_spec b hb).2.2) hbefore _ hcomment.2 rfl

end

/-- Layout makes no difference: texts with the same tokens denote the same module or none, and
so do a text and the same text with layout put in where a token ends. -/
theorem Module.read_ignores_layout :
    (∀ text text', (Tokens.ofText text).view = (Tokens.ofText text').view →
      (Module.read text).toOption = (Module.read text').toOption) ∧
    ∀ p w q ts, Spells (p ++ q) ts q → IsLayout w →
      (Module.read (p ++ (w ++ q))).toOption = (Module.read (p ++ q)).toOption := by
  refine ⟨fun _ _ => Module.read_congr, fun p w q ts h hw => Module.read_congr ?_⟩
  obtain ⟨p', heq, hinsert⟩ := h.insert
  obtain rfl := List.append_cancel_right heq
  rw [Tokens.view_of_spells (hinsert w hw), Tokens.view_of_spells h]

/-- A function without its first word. -/
def unworded : Bytes := " f() int \x7b return 1 \x7d"

theorem read_ignores_layout_unworded :
    (Module.read "func f ( )int\x7breturn 1\x7d").toOption =
        (Module.read ("func" ++ unworded)).toOption ∧
      (Module.read ("func" ++ ("\t// one\n" ++ unworded))).toOption =
        (Module.read ("func" ++ unworded)).toOption := by
  have hlayout : IsLayout "\t// one\n" :=
    .comment (c := " one") (w := []) (.inl (by decide)) (by decide) .nil
  have hspells : Spells ("func" ++ unworded) [.word "func"] unworded := by
    refine spells_word (by decide) ?_
    rintro b ⟨⟩
    decide
  exact ⟨Module.read_ignores_layout.1 _ _ (by decide +kernel),
    Module.read_ignores_layout.2 _ _ _ _ hspells hlayout⟩

end X64Backend.Code
