import X64Backend.Proofs.Code.Reading

/-! # Levels and parentheses

A printed expression is read back at each level at which it is printed, whatever follows that
cannot go on with it. None of its pairs of parentheses can be left out. Tokens that stand for an
expression have at least as many parentheses as the printed ones, and a phrase that loses a pair
is still a phrase, so that it is read, but as another expression.
-/

namespace X64Backend.Code

open Token List

variable {level : Nat} {ts : List Token} {op : Op} {text : Bytes}

/-! ## Reading at a level -/

namespace Reader

/-- An expression that binds at least as tightly as `level`, with fuel for all tokens left. -/
def exprAt (level : Nat) : Reader Expr := fun tokens =>
  leveled (tokens.lexemes.length + 1) (expr tokens.lexemes.length) (levelCount - level) tokens

theorem reads_exprAt {level : Nat} {ts rest : List Token} {e : Expr} {ends : Bool} {tokens : Tokens}
    (h : Forms level ts e) (hlevel : level ≤ levelCount) (hclear : Clear ends level rest)
    (hview : tokens.view = (ts ++ rest, ends)) :
    ∃ final, exprAt level tokens = .ok (e, final) ∧ final.view = (rest, ends) := by
  have hread : ReadsAt ends ts e (levelCount - level) :=
    (readable_of_forms h).at_level _ (by omega)
  refine hread tokens.lexemes.length rest ?_ ?_ tokens hview
  · exact Nat.le_of_eq (by rw [← (Prod.mk.inj hview).1, length_map])
  · rwa [Nat.sub_sub_self hlevel]

/-- Tokens of which the first can be looked at and is no operator. -/
theorem clear_of_peek {tokens final : Tokens} {t : Option Token} (h : peek tokens = .ok (t, final))
    (ht : ∀ op, t ≠ some (.mark (.op op))) (level : Nat) :
    Clear tokens.view.2 level tokens.view.1 := by
  rcases tokens with ⟨_ | ⟨lexeme, rest⟩, ending, line⟩
  · cases ending <;> cases h
    exact ⟨fun _ => rfl, nofun⟩
  · cases h
    exact clear_cons (fun op heq => ht op (congrArg some heq)) level

end Reader

/-- A printed expression, with anything behind it that begins neither with a part of a word nor
with an operator, is read back at the level at which it was printed, and all that follows it is
left. -/
theorem Expr.exprAt_print {e : Expr} (h : e.Legible) {level : Nat} (hlevel : level ≤ levelCount) :
    ∃ text, e.print level = .ok text ∧ ∀ rest, Stops rest →
      (∃ t, Reader.peek (Tokens.ofText rest) = .ok (t, Tokens.ofText rest) ∧
        ∀ op, t ≠ some (.mark (.op op))) →
      ∃ final, Reader.exprAt level (Tokens.ofText (text ++ rest)) = .ok (e, final) ∧
        final.view = (Tokens.ofText rest).view := by
  obtain ⟨text, hprint, hopen⟩ := h.print level
  refine ⟨text, hprint, ?_⟩
  rintro rest hstops ⟨t, hpeek, ht⟩
  exact Reader.reads_exprAt (h.forms fun _ _ => .inr hlevel) hlevel
    (Reader.clear_of_peek hpeek ht level) (Tokens.view_of_spells (hopen rest hstops))

/-- A product whose first factor needs parentheses. -/
def scaledSum : Expr := .binary .mul (.binary .add (.temp "a") (.const (-5))) (.mem (.name "g"))

theorem legible_scaledSum : scaledSum.Legible :=
  ⟨rfl, ⟨rfl, ⟨by decide, by decide⟩, show (-5 : Int64) ≠ _ by decide⟩,
    show isWord "g" = true by decide⟩

theorem scaledSum_exprAt_print : ∃ text, scaledSum.print 4 = .ok text ∧
    ∃ final, Reader.exprAt 4 (Tokens.ofText (text ++ ") < -1")) = .ok (scaledSum, final) ∧
      final.view = (Tokens.ofText ") < -1").view := by
  obtain ⟨text, hprint, hread⟩ := Expr.exprAt_print legible_scaledSum (Nat.le_refl 4)
  refine ⟨text, hprint, hread _ ?_ ⟨some (.mark .closeParen), by decide +kernel, by simp⟩⟩
  rintro b ⟨⟩
  decide

/-! ## Counting parentheses -/

/-- The number of opening parentheses. -/
def parens (ts : List Token) : Nat := ts.count (.mark .openParen)

theorem parens_append (ts us : List Token) : parens (ts ++ us) = parens ts + parens us :=
  count_append

theorem parens_tokens_le (e : Expr) (level : Nat) :
    parens (e.tokens level) ≤ parens (e.tokens 0) + 1 := by
  cases e with
  | binary op l r =>
    simp only [Expr.tokens]
    split
    · exact Nat.zero_le _
    · rw [if_neg (Nat.not_lt_zero _)]
      split
      · simp [parens]
      · exact Nat.le_succ _
  | _ => exact Nat.le_succ _

/-- Whatever tokens stand for an expression, the printed ones have no more parentheses. -/
theorem Forms.parens_le {e : Expr} (h : Forms level ts e) :
    parens (e.tokens level) ≤ parens ts := by
  have hconst (v : Int64) (level : Nat) : parens ((Expr.const v).tokens level) = 0 := by
    rw [Expr.tokens]
    split <;> rfl
  induction h with
  | number | negative =>
    rw [hconst]
    exact Nat.zero_le _
  | name | temp => exact Nat.le_refl _
  | mem _ ih =>
    simp only [Expr.tokens, parens_append]
    exact Nat.add_le_add_right (Nat.add_le_add_left ih _) _
  | paren _ ih =>
    refine Nat.le_trans (parens_tokens_le _ _) ?_
    simp only [parens_append]
    simp [parens] at ih ⊢
    omega
  | binary hop hle _ _ ihl ihr =>
    simp only [Expr.tokens, hop, if_neg (Nat.not_lt.mpr hle), parens_append]
    omega

/-! ## Other groupings -/

/-- An operator with its right operand can be put behind any tokens that stand for an
expression. -/
theorem Forms.before_operand {own : Nat} {us : List Token} {l r : Expr} (h : Forms level ts l)
    (hop : op.level? = some own) (hle : level ≤ own) (hr : Forms (own + 1) us r) :
    ∃ e, Forms level (ts ++ [.mark (.op op)] ++ us) e := by
  have hlt := Op.level?_lt hop
  have hdirect {ts : List Token} {l : Expr} {level : Nat} (hle : level ≤ own)
      (hl : Forms own ts l) : ∃ e, Forms level (ts ++ [.mark (.op op)] ++ us) e :=
    ⟨_, .binary hop hle hl hr⟩
  induction h with
  | number => exact hdirect hle .number
  | negative _ => exact hdirect hle (.negative (by omega))
  | name => exact hdirect hle .name
  | temp h => exact hdirect hle (.temp h)
  | mem h _ => exact hdirect hle (.mem h)
  | paren h _ => exact hdirect hle (.paren h)
  | @binary level own' op' ts us' l r' hop' hle' hl' hr' _ ihr =>
    -- an operator that binds weaker gives up its right operand to the one behind it
    by_cases hweaker : own' < own
    · obtain ⟨e, he⟩ := ihr hweaker
      exact ⟨_, by simpa only [append_assoc] using Forms.binary hop' hle' hl' he⟩
    · exact hdirect hle (.binary hop' (by omega) hl' hr')

/-- An operator can be put between any tokens that stand for expressions. -/
theorem Forms.before {own : Nat} {us : List Token} {l r : Expr} (hr : Forms level us r)
    (hop : op.level? = some own) (hl : Forms 0 ts l) :
    ∃ e, Forms 0 (ts ++ [.mark (.op op)] ++ us) e := by
  have hlt := Op.level?_lt hop
  induction hr generalizing op own ts l with
  | number => exact hl.before_operand hop (Nat.zero_le _) .number
  | negative _ => exact hl.before_operand hop (Nat.zero_le _) (.negative hlt)
  | name => exact hl.before_operand hop (Nat.zero_le _) .name
  | temp h => exact hl.before_operand hop (Nat.zero_le _) (.temp h)
  | mem h _ => exact hl.before_operand hop (Nat.zero_le _) (.mem h)
  | paren h _ => exact hl.before_operand hop (Nat.zero_le _) (.paren h)
  | @binary level own' op' us us' r r' hop' hle' hl' hr' ihl _ =>
    -- an operator on the right that binds no tighter takes the whole left side
    by_cases htighter : own < own'
    · exact hl.before_operand hop (Nat.zero_le _) (.binary hop' htighter hl' hr')
    · obtain ⟨e, he⟩ := ihl hop hl hlt
      obtain ⟨e', he'⟩ := he.before_operand hop' (Nat.zero_le _) hr'
      exact ⟨e', by simpa only [append_assoc] using he'⟩

/-- The tokens of a phrase stand for an expression. -/
theorem Phrase.forms (h : Phrase text ts) : ∃ e, Forms 0 ts e := by
  induction h with
  | @const v h => exact ⟨_, Expr.Legible.forms (e := .const v) h fun _ _ => .inr (Nat.zero_le _)⟩
  | name _ => exact ⟨_, .name⟩
  | temp _ hmem => exact ⟨_, .temp hmem⟩
  | mem _ ih =>
    obtain ⟨e, he⟩ := ih
    exact ⟨_, .mem he⟩
  | paren _ ih =>
    obtain ⟨e, he⟩ := ih
    exact ⟨e, .paren he⟩
  | operator hop _ _ ihl ihr =>
    obtain ⟨own, hown⟩ := Option.isSome_iff_exists.mp hop
    obtain ⟨l, hl⟩ := ihl
    obtain ⟨r, hr⟩ := ihr
    exact hr.before hown hl

/-! ## Matching pairs in a text -/

/-- Bytes other than round parentheses. -/
def IsPlain (b : UInt8) : Prop := b ≠ Bytes.ofChar '(' ∧ b ≠ Bytes.ofChar ')'

/-- Texts in which each parenthesis has its match. -/
inductive Balanced : Bytes → Prop
  | nil : Balanced []
  | byte {b : UInt8} {m : Bytes} (hb : IsPlain b) (h : Balanced m) : Balanced (b :: m)
  | pair {m m' : Bytes} (h : Balanced m) (h' : Balanced m') :
      Balanced (Bytes.ofChar '(' :: (m ++ Bytes.ofChar ')' :: m'))

/-- The second text is the first without one matching pair of parentheses. -/
inductive WithoutPair : Bytes → Bytes → Prop
  | here {m q : Bytes} (h : Balanced m) :
      WithoutPair (Bytes.ofChar '(' :: (m ++ Bytes.ofChar ')' :: q)) (m ++ q)
  | later {b : UInt8} {text shorter : Bytes} (h : WithoutPair text shorter) :
      WithoutPair (b :: text) (b :: shorter)

section

variable {x y m m' q q' text shorter : Bytes} {b : UInt8}

theorem isPlain_of_all (h : x.all (fun b => b != Bytes.ofChar '(' && b != Bytes.ofChar ')') = true) :
    ∀ b ∈ x, IsPlain b := by
  simpa only [all_eq_true, Bool.and_eq_true, bne_iff_ne, IsPlain] using h

theorem balanced_of_plain (h : ∀ b ∈ x, IsPlain b) : Balanced x := by
  induction x with
  | nil => exact .nil
  | cons b x ih =>
    obtain ⟨hb, hx⟩ := forall_mem_cons.mp h
    exact .byte hb (ih hx)

theorem Balanced.append (hx : Balanced x) (hy : Balanced y) : Balanced (x ++ y) := by
  induction hx with
  | nil => exact hy
  | byte hb _ ih => exact .byte hb ih
  | pair h _ _ ih =>
    rw [cons_append, append_assoc]
    exact .pair h ih

/-- A closing parenthesis matches in one place only. -/
theorem Balanced.eq_of_append_eq (h : Balanced m) (h' : Balanced m')
    (heq : m ++ Bytes.ofChar ')' :: q = m' ++ Bytes.ofChar ')' :: q') : m = m' ∧ q = q' := by
  induction h generalizing m' q q' with
  | nil =>
    cases h' with
    | nil => exact ⟨rfl, (List.cons.inj heq).2⟩
    | byte hb _ => exact absurd (List.cons.inj heq).1.symm hb.2
    | pair _ _ => exact absurd (List.cons.inj heq).1 (by decide)
  | byte hb _ ih =>
    cases h' with
    | nil => exact absurd (List.cons.inj heq).1 hb.2
    | byte _ h' =>
      grind
    | pair _ _ => exact absurd (List.cons.inj heq).1 hb.1
  | pair _ _ ih ih' =>
    cases h' with
    | nil => exact absurd (List.cons.inj heq).1 (by decide)
    | byte hb _ => exact absurd (List.cons.inj heq).1.symm hb.1
    | pair h' h'' =>
      simp only [cons_append, append_assoc] at heq
      obtain ⟨rfl, hrest⟩ := ih h' (List.cons.inj heq).2
      obtain ⟨rfl, hq⟩ := ih' h'' hrest
      exact ⟨rfl, hq⟩

theorem withoutPair_cons (h : WithoutPair (b :: text) shorter) :
    (b = Bytes.ofChar '(' ∧ ∃ m q, Balanced m ∧ text = m ++ Bytes.ofChar ')' :: q ∧
      shorter = m ++ q) ∨ ∃ shorter', WithoutPair text shorter' ∧ shorter = b :: shorter' := by
  generalize htext : b :: text = whole at h
  cases h with
  | here h =>
    obtain ⟨rfl, rfl⟩ := List.cons.inj htext
    exact .inl ⟨rfl, _, _, h, rfl, rfl⟩
  | later h =>
    obtain ⟨rfl, rfl⟩ := List.cons.inj htext
    exact .inr ⟨_, h, rfl⟩

theorem WithoutPair.of_ne (h : WithoutPair (b :: text) shorter) (hb : b ≠ Bytes.ofChar '(') :
    ∃ shorter', WithoutPair text shorter' ∧ shorter = b :: shorter' :=
  (withoutPair_cons h).resolve_left fun hopen => hb hopen.1

theorem WithoutPair.prepend (x : Bytes) (h : WithoutPair y shorter) :
    WithoutPair (x ++ y) (x ++ shorter) := by
  induction x with
  | nil => exact h
  | cons b x ih => exact .later ih

theorem WithoutPair.append (h : WithoutPair x shorter) (y : Bytes) :
    WithoutPair (x ++ y) (shorter ++ y) := by
  induction h with
  | here h =>
    rw [cons_append, append_assoc, append_assoc]
    exact .here h
  | later _ ih => exact .later ih

theorem WithoutPair.behind_plain (hx : ∀ b ∈ x, IsPlain b) (h : WithoutPair (x ++ y) shorter) :
    ∃ y', WithoutPair y y' ∧ shorter = x ++ y' := by
  induction x generalizing shorter with
  | nil => exact ⟨shorter, h, rfl⟩
  | cons b x ih =>
    obtain ⟨hb, hx⟩ := forall_mem_cons.mp hx
    obtain ⟨shorter', hrest, rfl⟩ := WithoutPair.of_ne h hb.1
    obtain ⟨y', hy, rfl⟩ := ih hx hrest
    exact ⟨y', hy, rfl⟩

theorem not_withoutPair_plain (hx : ∀ b ∈ x, IsPlain b) : ¬ WithoutPair x shorter := by
  intro h
  rw [← append_nil x] at h
  obtain ⟨y', hy, _⟩ := WithoutPair.behind_plain hx h
  cases hy

/-- A pair lies on one side of each place where all parentheses are matched. -/
theorem WithoutPair.cases_append (hx : Balanced x) (h : WithoutPair (x ++ y) shorter) :
    (∃ x', WithoutPair x x' ∧ shorter = x' ++ y) ∨ ∃ y', WithoutPair y y' ∧ shorter = x ++ y' := by
  induction hx generalizing y shorter with
  | nil => exact .inr ⟨shorter, h, rfl⟩
  | byte hb _ ih =>
    obtain ⟨shorter', hrest, rfl⟩ := WithoutPair.of_ne h hb.1
    rcases ih hrest with ⟨x', hx, rfl⟩ | ⟨y', hy, rfl⟩
    · exact .inl ⟨_, .later hx, rfl⟩
    · exact .inr ⟨y', hy, rfl⟩
  | @pair a x ha _ iha ihx =>
    rw [cons_append, append_assoc, cons_append] at h
    rcases withoutPair_cons h with ⟨_, m, q, hm, heq, rfl⟩ | ⟨shorter', hrest, rfl⟩
    · obtain ⟨rfl, rfl⟩ := ha.eq_of_append_eq hm heq
      exact .inl ⟨a ++ x, .here ha, (append_assoc ..).symm⟩
    rcases iha hrest with ⟨a', hpair, rfl⟩ | ⟨z, hz, rfl⟩
    · exact .inl ⟨_, .later (hpair.append _), by simp⟩
    obtain ⟨z', hbehind, rfl⟩ := WithoutPair.of_ne hz (by decide)
    rcases ihx hbehind with ⟨x', hx, rfl⟩ | ⟨y', hy, rfl⟩
    · exact .inl ⟨_, .later ((WithoutPair.later hx).prepend a), by simp⟩
    · exact .inr ⟨y', hy, by simp⟩

end

/-! ## Phrases without a pair -/

theorem isPlain_of_isWordPart (b : UInt8) (h : isWordPart b = true) : IsPlain b := by
  obtain ⟨_, _, _, hsingle, _⟩ := wordPart_spec b h
  constructor <;> rintro rfl <;> exact absurd hsingle (by decide)

theorem isPlain_of_isWord {w : Bytes} (h : isWord w = true) : ∀ b ∈ w, IsPlain b := by
  cases w with
  | nil => cases h
  | cons b w =>
    obtain ⟨hb, hw⟩ := (Bool.and_eq_true _ _).mp h
    refine forall_mem_cons.mpr ⟨isPlain_of_isWordPart b ?_, fun c hc => ?_⟩
    · simp [isWordPart, hb]
    · exact isPlain_of_isWordPart c (all_eq_true.mp hw c hc)

theorem isPlain_of_mem_ofWord {v : Int64} (h : v ≠ Int64.minValue) :
    ∀ b ∈ Bytes.ofWord v, IsPlain b := by
  have hdigits (n : Nat) : ∀ b ∈ Bytes.ofNat n, IsPlain b := fun b hb =>
    isPlain_of_isWordPart b
      (isWordPart_of_isDigit (Bytes.forall_mem_digits (P := fun b => isDigit b = true) (by decide)
        (by decide) n b hb))
  by_cases hv : 0 ≤ v
  · rw [ofWord_of_nonneg hv]
    exact hdigits _
  · rw [(ofWord_of_neg hv h).2]
    exact forall_mem_cons.mpr ⟨⟨by decide, by decide⟩, hdigits _⟩

theorem isPlain_of_mem_operator (h : op.level?.isSome = true) :
    ∀ b ∈ (" " ++ op.symbol ++ " " : Bytes), IsPlain b := by
  cases op with
  | other s => cases h
  | _ => exact isPlain_of_all (by decide)

theorem Phrase.balanced (h : Phrase text ts) : Balanced text := by
  induction h with
  | const h => exact balanced_of_plain (isPlain_of_mem_ofWord h)
  | name h =>
    exact .byte ⟨by decide, by decide⟩ (balanced_of_plain (isPlain_of_isWord h))
  | temp h => exact balanced_of_plain (isPlain_of_isWord h)
  | mem _ ih =>
    refine (Balanced.append ?_ ih).append ?_ <;>
      exact balanced_of_plain (isPlain_of_all (by decide))
  | paren _ ih => exact .pair ih .nil
  | operator hop _ _ ihl ihr =>
    exact (ihl.append (balanced_of_plain (isPlain_of_mem_operator hop))).append ihr

/-- A phrase that loses a pair of parentheses is a phrase with one pair less. -/
theorem Phrase.withoutPair {shorter : Bytes} (h : Phrase text ts)
    (hpair : WithoutPair text shorter) : ∃ us, Phrase shorter us ∧ parens ts = parens us + 1 := by
  induction h generalizing shorter with
  | const h => exact absurd hpair (not_withoutPair_plain (isPlain_of_mem_ofWord h))
  | name h =>
    obtain ⟨_, hpair, _⟩ := hpair.of_ne (by decide)
    exact absurd hpair (not_withoutPair_plain (isPlain_of_isWord h))
  | temp h => exact absurd hpair (not_withoutPair_plain (isPlain_of_isWord h))
  | @mem text ts htext ih =>
    rw [append_assoc] at hpair
    obtain ⟨inner, hinner, rfl⟩ := hpair.behind_plain (isPlain_of_all (by decide))
    rcases hinner.cases_append htext.balanced with ⟨text', hless, rfl⟩ | ⟨_, hless, _⟩
    · obtain ⟨us, hus, hcount⟩ := ih hless
      rw [← append_assoc]
      exact ⟨_, .mem hus, by simp only [parens_append, hcount]; omega⟩
    · exact absurd hless (not_withoutPair_plain (isPlain_of_all (by decide)))
  | @paren text ts htext ih =>
    rcases withoutPair_cons hpair with ⟨_, m, q, hm, heq, rfl⟩ | ⟨shorter', hinner, rfl⟩
    · obtain ⟨rfl, rfl⟩ := htext.balanced.eq_of_append_eq hm heq
      rw [append_nil]
      exact ⟨ts, htext, by simp [parens]⟩
    rcases hinner.cases_append htext.balanced with ⟨text', hless, rfl⟩ | ⟨_, hless, _⟩
    · obtain ⟨us, hus, hcount⟩ := ih hless
      exact ⟨_, .paren hus, by simp only [parens_append, hcount]; omega⟩
    · obtain ⟨_, hnil, _⟩ := hless.of_ne (by decide)
      cases hnil
  | @operator op p q ts us hop hp hq ihp ihq =>
    rw [append_assoc] at hpair
    rcases hpair.cases_append hp.balanced with ⟨p', hless, rfl⟩ | ⟨tail, hless, rfl⟩
    · obtain ⟨ts', hts, hcount⟩ := ihp hless
      rw [← append_assoc]
      exact ⟨_, .operator hop hts hq, by simp only [parens_append, hcount]; omega⟩
    · obtain ⟨q', hright, rfl⟩ := hless.behind_plain (isPlain_of_mem_operator hop)
      obtain ⟨us', hus, hcount⟩ := ihq hright
      rw [← append_assoc]
      exact ⟨_, .operator hop hp hus, by simp only [parens_append, hcount]; omega⟩

/-- A printed expression that loses any matching pair of its parentheses is read, to its end, as
another expression. -/
theorem Expr.print_without_pair {e : Expr} (h : e.Legible) : ∃ text, e.print 0 = .ok text ∧
    ∀ shorter, WithoutPair text shorter → ∃ e' final,
      Reader.exprAt 0 (Tokens.ofText shorter) = .ok (e', final) ∧ final.view = ([], true) ∧
        e' ≠ e := by
  obtain ⟨text, hprint, hphrase⟩ := h.phrase 0
  refine ⟨text, hprint, fun shorter hpair => ?_⟩
  obtain ⟨ts, hts, hcount⟩ := hphrase.withoutPair hpair
  obtain ⟨e', hforms⟩ := hts.forms
  have hview : (Tokens.ofText shorter).view = (ts ++ [], true) := by
    have := Tokens.view_of_spells (hts.open [] nofun)
    rwa [List.append_nil] at this
  obtain ⟨final, hread, hleft⟩ := Reader.reads_exprAt hforms (Nat.zero_le _)
    ⟨fun _ => rfl, by simp⟩ hview
  refine ⟨e', final, hread, hleft, ?_⟩
  rintro rfl
  have := hforms.parens_le
  omega

theorem scaledSum_without_pair : WithoutPair "(a + -5) * mem[@g]" "a + -5 * mem[@g]" ∧ ∃ e' final,
    Reader.exprAt 0 (Tokens.ofText "a + -5 * mem[@g]") = .ok (e', final) ∧
      final.view = ([], true) ∧ e' ≠ scaledSum := by
  have hsum : Balanced "a + -5" := balanced_of_plain (isPlain_of_all (by decide))
  have hpair : WithoutPair "(a + -5) * mem[@g]" "a + -5 * mem[@g]" :=
    WithoutPair.here (q := " * mem[@g]") hsum
  obtain ⟨text, hprint, hread⟩ := Expr.print_without_pair legible_scaledSum
  have htext : scaledSum.print 0 = .ok "(a + -5) * mem[@g]" := by decide +kernel
  obtain rfl := Except.ok.inj (hprint.symm.trans htext)
  exact ⟨hpair, hread _ hpair⟩

end X64Backend.Code
