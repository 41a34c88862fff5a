import X64Backend.Proofs.Outcome
import X64Backend.Proofs.Text.Quoting

/-! # Texts and their tokens

A text is made of blanks and tokens, each cut off where it ends. Words, marks, numbers and
strings are cut off as they were written, as long as what follows does not go on with them.
-/

namespace X64Backend.Code

open List

namespace Token

variable {text after : Bytes}

/-- A property of all bytes, checked one by one. -/
theorem forall_byte {P : UInt8 → Prop} (h : ∀ n < 256, P (UInt8.ofNat n)) (b : UInt8) : P b := by
  have := h b.toNat b.toNat_lt
  rwa [UInt8.ofNat_toNat] at this

/-- Words: a letter or underscore, then letters, digits and underscores. -/
def isWord : Bytes → Bool
  | [] => false
  | b :: rest => isWordStart b && rest.all isWordPart

/-- The text does not go on with a word or number before it. -/
def Stops (text : Bytes) : Prop := ∀ b ∈ text.head?, isWordPart b = false

theorem takeWhile_of_stops {w rest : Bytes} (hw : ∀ b ∈ w, isWordPart b = true) (hstops : Stops rest) :
    (w ++ rest).takeWhile isWordPart = w ∧ (w ++ rest).dropWhile isWordPart = rest := by
  rw [takeWhile_append_of_pos hw, dropWhile_append_of_pos hw]
  cases rest with
  | nil => simp
  | cons b rest =>
    have hb := hstops b rfl
    simp [hb]

/-- Tokens that a text can have: words, and numbers that are not negative. -/
def Legible : Token → Prop
  | .word w => isWord w = true
  | .number v => 0 ≤ v
  | _ => True

theorem nonneg_of_readSource {v : Int64} (h : Numeral.readSource text = .ok v) : 0 ≤ v := by
  obtain ⟨n, _, h⟩ := bind_eq_ok.mp h
  split at h
  · cases h
    rename_i hlt
    rw [Int64.le_iff_toInt_le, Int64.toInt_ofNat_of_lt hlt]
    exact Int.natCast_nonneg n
  · cases h

/-- The second text begins as the first one does, or with a blank, or is empty. -/
def Resumes (after after' : Bytes) : Prop :=
  after'.head? = after.head? ∨ ∀ b ∈ after'.head?, isBlank b = true ∨ b = Bytes.ofChar '\n'

theorem blank_spec (b : UInt8) (h : isBlank b = true ∨ b = Bytes.ofChar '\n') :
    isWordPart b = false ∧ b ≠ Bytes.ofChar '=' ∧ b ≠ Bytes.ofChar '/' := by
  simp only [isBlank, Bool.or_eq_true, decide_eq_true_eq] at h
  rcases h with ((rfl | rfl) | rfl) | rfl <;> decide

/-- What may not come next does not come next when a text resumes. -/
theorem Resumes.head {after' : Bytes} (h : Resumes after after') {P : UInt8 → Prop}
    (hblank : ∀ b, isBlank b = true ∨ b = Bytes.ofChar '\n' → P b)
    (hhead : ∀ b ∈ after.head?, P b) :
    ∀ b ∈ after'.head?, P b := fun b hb =>
  h.elim (fun heq => hhead b (heq ▸ hb)) fun h => hblank b (h b hb)

theorem stringContent?_spec {content : Bytes} (h : stringContent? text = some (content, after)) :
    ∃ x, text = x ++ after ∧ ∀ after', stringContent? (x ++ after') = some (content, after') := by
  fun_induction stringContent? text generalizing content with
  | case1 => cases h
  | case2 =>
    cases h
    exact ⟨[_], rfl, fun after' => by simp [stringContent?.eq_def]⟩
  | case3 => cases h
  | case4 => cases h
  | case5 c rest hquote hbreak ih =>
    obtain ⟨⟨content', after'⟩, hrest, heq⟩ := Option.map_eq_some_iff.mp h
    cases heq
    obtain ⟨x, rfl, hx⟩ := ih hrest
    refine ⟨_ :: c :: x, rfl, fun after' => ?_⟩
    simp [stringContent?.eq_def (_ :: c :: _), hquote, hbreak, hx]
  | case6 b rest hquote hbreak hslash ih =>
    obtain ⟨⟨content', after'⟩, hrest, heq⟩ := Option.map_eq_some_iff.mp h
    cases heq
    obtain ⟨x, rfl, hx⟩ := ih hrest
    refine ⟨b :: x, rfl, fun after' => ?_⟩
    simp [stringContent?.eq_def (b :: _), hquote, hbreak, hslash, hx]

/-- A token stands before what is left, is one that a text can have, and is read in the same way
before all that does not go on with it. -/
theorem read_spec {b : UInt8} {t : Token} (h : read b text = .ok (t, after)) :
    ∃ x, text = x ++ after ∧ t.Legible ∧
      ∀ after', Resumes after after' → read b (x ++ after') = .ok (t, after') := by
  have hsplit (text : Bytes) : text = text.takeWhile isWordPart ++ text.dropWhile isWordPart :=
    takeWhile_append_dropWhile.symm
  -- Words and numbers end at the same place before all that does not go on with them.
  have hwords {text after' : Bytes} (h : Resumes (text.dropWhile isWordPart) after') :
      (text.takeWhile isWordPart ++ after').takeWhile isWordPart = text.takeWhile isWordPart ∧
        (text.takeWhile isWordPart ++ after').dropWhile isWordPart = after' := by
    refine takeWhile_of_stops (all_eq_true.mp all_takeWhile)
      (h.head (fun b hb => (blank_spec b hb).1) fun b hb => ?_)
    have := head?_dropWhile_not isWordPart text
    rwa [show (text.dropWhile isWordPart).head? = some b from hb] at this
  unfold read at h
  split at h
  next hsingle =>
    cases h
    exact ⟨[], rfl, trivial, fun after' _ => by simp only [nil_append, read, hsingle]⟩
  next hsingle hcomparison =>
    -- A comparison of one byte, with no equals sign behind it.
    have hshort {m m' : Mark} {after' : Bytes} (hne : ∀ c ∈ after'.head?, c ≠ Bytes.ofChar '=')
        (hmarks : comparisonMarks? b = some (m', some m)) : read b after' = .ok (.mark m, after') := by
      cases after' with
      | nil => simp only [read, hsingle, hmarks]
      | cons c rest => simp only [read, hsingle, hmarks, if_neg (hne c rfl)]
    have hblank : ∀ b, isBlank b = true ∨ b = Bytes.ofChar '\n' → b ≠ Bytes.ofChar '=' :=
      fun b hb => (blank_spec b hb).2.1
    split at h
    next c _ =>
      split at h
      next heq =>
        cases h
        exact ⟨[c], rfl, trivial, fun after' _ => by
          simp only [singleton_append, read, hsingle, hcomparison, if_pos heq]⟩
      next hne =>
        split at h
        · cases h
          exact ⟨[], rfl, trivial, fun after' h => hshort (h.head hblank (by simpa using hne)) hcomparison⟩
        · cases h
    next =>
      cases h
      exact ⟨[], rfl, trivial, fun after' h => hshort (h.head hblank (by simp)) hcomparison⟩
    next => cases h
  next hsingle hcomparison =>
    split at h
    next hquote =>
      split at h
      · cases h
      next content rest hcontent =>
        split at h
        next string hstring =>
          cases h
          obtain ⟨x, rfl, hx⟩ := stringContent?_spec hcontent
          exact ⟨x, rfl, trivial, fun after' _ => by
            simp only [read, hsingle, hcomparison, if_pos hquote, hx, hstring]⟩
        · cases h
    next hquote =>
      split at h
      next hdigit =>
        simp only at h
        split at h <;> cases h
        rename_i hvalue
        refine ⟨_, hsplit text, nonneg_of_readSource hvalue, fun after' h => ?_⟩
        simp only [read, hsingle, hcomparison, if_neg hquote, if_pos hdigit, hwords h, hvalue]
      next hdigit =>
        grind [text, Legible, isWord, all_takeWhile, read]

/-- What is left behind a token is no longer than what stood behind its first byte. -/
theorem length_of_read {b : UInt8} {t : Token} (h : read b text = .ok (t, after)) :
    after.length ≤ text.length := by
  obtain ⟨x, rfl, _, _⟩ := read_spec h
  simp

theorem read_ne_exhausted (b : UInt8) (text : Bytes) : read b text ≠ .error .exhausted := by
  fun_cases read b text <;> simp

/-- The text begins with these tokens, and the rest of it is left behind them. -/
inductive Spells : Bytes → List Token → Bytes → Prop
  | nil (rest : Bytes) : Spells rest [] rest
  | blank {b : UInt8} {text rest : Bytes} {ts : List Token}
      (hb : isBlank b = true ∨ b = Bytes.ofChar '\n') (h : Spells text ts rest) :
      Spells (b :: text) ts rest
  | comment {c text rest : Bytes} {ts : List Token} (hc : Bytes.ofChar '\n' ∉ c)
      (h : Spells text ts rest) : Spells
        (Bytes.ofChar '/' :: Bytes.ofChar '/' :: (c ++ Bytes.ofChar '\n' :: text)) ts rest
  | token {b : UInt8} {text after rest : Bytes} {t : Token} {ts : List Token}
      (hblank : isBlank b = false) (hbreak : b ≠ Bytes.ofChar '\n')
      (hslash : (b = Bytes.ofChar '/' && text.head? = some (Bytes.ofChar '/')) = false)
      (hread : read b text = .ok (t, after)) (h : Spells after ts rest) :
      Spells (b :: text) (t :: ts) rest

theorem Spells.trans {mid rest : Bytes} {ts us : List Token} (h : Spells text ts mid)
    (h' : Spells mid us rest) : Spells text (ts ++ us) rest := by
  induction h with
  | nil => exact h'
  | blank hb _ ih => exact .blank hb (ih h')
  | comment hc _ ih => exact .comment hc (ih h')
  | token hblank hbreak hslash hread _ ih => exact .token hblank hbreak hslash hread (ih h')

end Token

/-- Whether the text ends where the tokens do. -/
def Ending.isFinished : Ending → Bool
  | .finished _ => true
  | .flawed .. => false

namespace Tokens

open Token

variable {text : Bytes}

/-- The tokens without their lines, and whether the text ends behind them. -/
def viewOf (scan : List Lexeme × Ending) : List Token × Bool :=
  (scan.1.map (·.token), scan.2.isFinished)

/-- What is left to read, lines aside. -/
def view (tokens : Tokens) : List Token × Bool := viewOf (tokens.lexemes, tokens.ending)

theorem skipBlanks_snd (inComment : Bool) (line line' : Nat) (text : Bytes) :
    (skipBlanks inComment line text).2 = (skipBlanks inComment line' text).2 := by
  induction text generalizing inComment line line' with
  | nil => rfl
  | cons b rest ih =>
    grind [skipBlanks]

theorem length_skipBlanks_le (inComment : Bool) (line : Nat) (text : Bytes) :
    (skipBlanks inComment line text).2.length ≤ text.length := by
  fun_induction skipBlanks inComment line text <;> simp_all <;> omega

theorem scanFrom_congr {fuel line line' : Nat} {text' : Bytes}
    (h : skipBlanks false line text = skipBlanks false line' text') :
    scanFrom fuel line text = scanFrom fuel line' text' := by
  simp only [scanFrom.eq_def fuel line text, scanFrom.eq_def fuel line' text', h]

/-- Neither lines nor fuel beyond the length of the text make a difference. -/
theorem viewOf_scanFrom {fuel fuel' : Nat} (h : text.length ≤ fuel) (h' : text.length ≤ fuel')
    (line line' : Nat) : viewOf (scanFrom fuel line text) = viewOf (scanFrom fuel' line' text) := by
  induction fuel generalizing fuel' text line line' with
  | zero =>
    obtain rfl := length_eq_zero_iff.mp (Nat.le_zero.mp h)
    simp only [scanFrom.eq_def, skipBlanks]
    rfl
  | succ fuel ih =>
    have hlen := length_skipBlanks_le false line text
    have hsnd := skipBlanks_snd false line line' text
    rcases hskip : skipBlanks false line text with ⟨l, x⟩
    rcases hskip' : skipBlanks false line' text with ⟨l', x'⟩
    rw [hskip] at hlen hsnd
    rw [hskip'] at hsnd
    obtain rfl : x = x' := hsnd
    simp only [scanFrom.eq_def (fuel + 1) line, scanFrom.eq_def fuel' line', hskip, hskip']
    cases x with
    | nil => rfl
    | cons b rest =>
      simp only [length_cons] at hlen
      cases fuel' with
      | zero => omega
      | succ fuel' =>
        cases hread : read b rest with
        | error flaw =>
          simp only [hread]
          rfl
        | ok p =>
          have hafter := length_of_read hread
          have : viewOf (scanFrom fuel l p.2) = viewOf (scanFrom fuel' l' p.2) :=
            ih (by omega) (by omega) l l'
          simp only [hread, viewOf, Prod.mk.injEq, map_cons] at this ⊢
          exact ⟨congrArg _ this.1, this.2⟩

/-- Blanks and comments before a text make no difference. -/
theorem view_ofText_of_skip {text' : Bytes} (hle : text'.length ≤ text.length) (line : Nat)
    (h : skipBlanks false 1 text = skipBlanks false line text') :
    (ofText text).view = (ofText text').view := by
  show viewOf (scanFrom text.length 1 text) = viewOf (scanFrom text'.length 1 text')
  rw [scanFrom_congr h]
  exact viewOf_scanFrom hle (Nat.le_refl _) _ _

theorem skipBlanks_comment {c : Bytes} (hc : Bytes.ofChar '\n' ∉ c) (line : Nat) (text : Bytes) :
    skipBlanks true line (c ++ Bytes.ofChar '\n' :: text) = skipBlanks false (line + 1) text := by
  induction c with
  | nil => simp [skipBlanks]
  | cons b c ih =>
    grind [skipBlanks]

/-- A text is cut into the tokens that it begins with, and those of the rest. -/
theorem view_of_spells {rest : Bytes} {ts : List Token} (h : Spells text ts rest) :
    (ofText text).view = (ts ++ (ofText rest).view.1, (ofText rest).view.2) := by
  induction h with
  | nil => rfl
  | @blank b text rest ts hb _ ih =>
    rw [← ih]
    by_cases hbreak : b = Bytes.ofChar '\n'
    · exact view_ofText_of_skip (by simp) 2 (by rw [skipBlanks, if_pos hbreak])
    · refine view_ofText_of_skip (by simp) 1 ?_
      rw [skipBlanks, if_neg hbreak]
      simp [hb.resolve_right hbreak]
  | @comment c text rest ts hc _ ih =>
    rw [← ih]
    refine view_ofText_of_skip (by simp; omega) 2 ?_
    have hslash : Bytes.ofChar '/' ≠ Bytes.ofChar '\n' := by decide
    have hblank : isBlank (Bytes.ofChar '/') = false := by decide
    rw [skipBlanks, if_neg hslash]
    simp only [hblank, head?_cons, decide_true, Bool.and_self, if_true, if_false,
      Bool.false_eq_true]
    rw [skipBlanks, if_neg hslash, if_pos rfl, skipBlanks_comment hc]
  | @token b text after rest t ts hblank hbreak hslash hread _ ih =>
    have hskip : skipBlanks false 1 (b :: text) = (1, b :: text) := by
      rw [skipBlanks, if_neg hbreak]
      simp [hblank, hslash]
    have hafter := length_of_read hread
    have hview := viewOf_scanFrom hafter (Nat.le_refl _) 1 1
    rw [cons_append, ← (Prod.mk.inj ih).1, ← (Prod.mk.inj ih).2]
    show viewOf (scanFrom (text.length + 1) 1 (b :: text)) = _
    simp only [scanFrom.eq_def (text.length + 1), hskip, hread]
    simp only [viewOf, Prod.mk.injEq, map_cons] at hview ⊢
    exact ⟨congrArg _ hview.1, hview.2⟩

end Tokens

namespace Token

variable {rest : Bytes}

theorem wordPart_spec : ∀ b, isWordPart b = true →
    isBlank b = false ∧ b ≠ Bytes.ofChar '\n' ∧ b ≠ Bytes.ofChar '/' ∧ singleMark? b = none ∧
      comparisonMarks? b = none ∧ b ≠ Bytes.ofChar '"' ∧ isDigit b = !isWordStart b :=
  forall_byte (by decide +kernel)

theorem isWordPart_of_isDigit {b : UInt8} (h : isDigit b = true) : isWordPart b = true := by
  simp [isWordPart, h]

theorem spells_word {w : Bytes} (hw : isWord w = true) (hstops : Stops rest) :
    Spells (w ++ rest) [.word w] rest := by
  cases w with
  | nil => cases hw
  | cons b w =>
    obtain ⟨hb, hw⟩ := (Bool.and_eq_true _ _).mp hw
    obtain ⟨htake, hdrop⟩ := takeWhile_of_stops (all_eq_true.mp hw) hstops
    obtain ⟨hblank, hbreak, hslash, hsingle, hcomparison, hquote, hdigit⟩ :=
      wordPart_spec b (by simp [isWordPart, hb])
    rw [cons_append]
    refine .token hblank hbreak (by simp [hslash]) ?_ (.nil rest)
    simp only [read, hsingle, hcomparison, if_neg hquote, hdigit, hb, htake, hdrop]
    rfl

/-- Marks that no byte behind them changes. -/
def isTight : Mark → Bool
  | .openParen | .closeParen | .openBrace | .closeBrace | .openBracket | .closeBracket | .comma
  | .colon | .semicolon | .at | .op .sub => true
  | _ => false

theorem spells_tight {m : Mark} (hm : isTight m = true) (rest : Bytes) :
    Spells (m.text ++ rest) [.mark m] rest := by
  obtain ⟨b, htext, hblank, hbreak, hslash, hsingle⟩ : ∃ b, m.text = [b] ∧ isBlank b = false ∧
      b ≠ Bytes.ofChar '\n' ∧ b ≠ Bytes.ofChar '/' ∧ singleMark? b = some m := by
    cases m with
    | assign => cases hm
    | op o =>
      cases o with
      | sub => exact ⟨_, rfl, by decide⟩
      | _ => cases hm
    | _ => exact ⟨_, rfl, by decide⟩
  rw [htext, singleton_append]
  refine .token hblank hbreak (by simp [hslash]) ?_ (.nil rest)
  simp only [read, hsingle]

/-- The marks that stand for operators of the language, and the assignment. -/
def isSpaced : Mark → Bool
  | .assign => true
  | .op (.other _) => false
  | .op _ => true
  | _ => false

/-- An operator with a blank behind it. -/
theorem spells_spaced {m : Mark} (hm : isSpaced m = true) (rest : Bytes) :
    Spells (m.text ++ Bytes.ofChar ' ' :: rest) [.mark m] rest := by
  have hafter : Spells (Bytes.ofChar ' ' :: rest) [] rest := .blank (.inl rfl) (.nil rest)
  have hdone {b c : UInt8} {tail : Bytes} (hblank : isBlank b = false)
      (hbreak : b ≠ Bytes.ofChar '\n') (hhead : tail.head? = some c) (hslash : c ≠ Bytes.ofChar '/')
      (hread : read b tail = .ok (.mark m, Bytes.ofChar ' ' :: rest)) :
      Spells (b :: tail) [.mark m] rest :=
    .token hblank hbreak (by simp [hhead, hslash]) hread hafter
  cases m with
  | assign => exact hdone (by decide) (by decide) rfl (by decide) rfl
  | op o =>
    cases o with
    | other s => cases hm
    | _ => exact hdone (by decide) (by decide) rfl (by decide) rfl
  | _ => cases hm

theorem spells_number {n : Nat} (hn : n < 2 ^ 63) (hstops : Stops rest) :
    Spells (Bytes.ofNat n ++ rest) [.number (Int64.ofNat n)] rest := by
  have hdigits : ∀ b ∈ Bytes.ofNat n, isDigit b = true :=
    Bytes.forall_mem_digits (by decide) (by decide) n
  have hvalue := Numeral.readSource_ofNat hn
  cases htext : Bytes.ofNat n with
  | nil => exact absurd htext (Bytes.digits_ne_nil 10 n)
  | cons b digits =>
    rw [htext] at hdigits hvalue
    obtain ⟨hblank, hbreak, hslash, hsingle, hcomparison, hquote, _⟩ :=
      wordPart_spec b (isWordPart_of_isDigit (hdigits b mem_cons_self))
    have hparts : ∀ c ∈ digits, isWordPart c = true := fun c hc =>
      isWordPart_of_isDigit (hdigits c (mem_cons_of_mem _ hc))
    obtain ⟨htake, hdrop⟩ := takeWhile_of_stops hparts hstops
    rw [cons_append]
    refine .token hblank hbreak (by simp [hslash]) ?_ (.nil rest)
    simp only [read, hsingle, hcomparison, if_neg hquote, hdigits b mem_cons_self, if_true,
      htake, hdrop, hvalue]

theorem spells_string (content rest : Bytes) :
    Spells (Quoted.write content ++ rest) [.string content] rest := by
  have hcontent := stringContent?_writeFrom content rest
  have htext : Quoted.write content ++ rest =
      Bytes.ofChar '"' :: (Quoted.writeFrom 0 content ++ Bytes.ofChar '"' :: rest) := by
    rw [Quoted.write, append_assoc, append_assoc]
    rfl
  rw [htext]
  have hslash : Bytes.ofChar '"' ≠ Bytes.ofChar '/' := by decide
  refine .token (by decide) (by decide) (by simp [hslash]) ?_ (.nil rest)
  have hsingle : singleMark? (Bytes.ofChar '"') = none := by decide
  have hcomparison : comparisonMarks? (Bytes.ofChar '"') = none := by decide
  simp only [read, hsingle, hcomparison, if_true, hcontent, Quoted.read?_writeFrom]

end Token

end X64Backend.Code
