import X64Backend.Code.Token
import X64Backend.Proofs.Text.Digits
import X64Backend.Proofs.Text.Runes

/-! # Quoted text is read back

Text is written as one piece for each character, or for each byte that starts none. A piece
is read back as what it was written for, whatever follows it, and no piece ends a string.
-/

namespace X64Backend

open List

namespace Quoted

variable {code : Nat}

theorem readFrom_skip {skip : Nat} {a rest : Bytes} (h : a.length = skip) :
    readFrom skip (a ++ rest) = readFrom 0 rest := by
  induction a generalizing skip with
  | nil =>
    subst h
    rfl
  | cons b a ih =>
    subst h
    exact ih rfl

/-- The bytes of `piece` are read as `text`, whatever follows. -/
def Stands (piece text : Bytes) : Prop :=
  ∀ rest, readFrom 0 (piece ++ rest) = (readFrom 0 rest).map (text ++ ·)

/-- An escape is read as what it stands for. -/
theorem stands_escape (escape : Bytes) {text : Bytes}
    (h : ∀ rest, readEscape? (escape ++ rest) = some (text, escape.length)) :
    Stands (backslash :: escape) text := by
  intro rest
  rw [cons_append, readFrom, if_pos rfl, h rest]
  simp only [readFrom_skip rfl]

/-- A character that is no backslash is read as it stands. -/
theorem stands_encode (hscalar : Rune.isScalar code = true) (hcode : code ≠ backslash.toNat) :
    Stands (Rune.encode code) (Rune.encode code) := by
  intro rest
  have hdecode := (Rune.begins_encode hscalar rest).decode?
  cases hbytes : Rune.encode code with
  | nil => exact absurd hbytes (Rune.encode_ne_nil code)
  | cons b bytes =>
    rw [hbytes] at hdecode
    have hb : b ≠ backslash := by
      rintro rfl
      have hone := (@Rune.Begins.one backslash (bytes ++ rest) (by decide)).decode?
      rw [cons_append, hone] at hdecode
      exact hcode (Prod.mk.inj (Option.some.inj hdecode)).1.symm
    rw [cons_append] at hdecode ⊢
    rw [readFrom, if_neg hb, hdecode]
    simp only [length_cons, Nat.add_sub_cancel, readFrom_skip rfl, hbytes]

theorem encode_of_lt (h : code < 0x80) : Rune.encode code = [code.toUInt8] := by
  rw [Rune.encode, if_pos h]

/-- Digits of base sixteen are read as the code that they were written for. -/
theorem stands_digits {width : Nat} (letter : UInt8) {text : Bytes} (h : code < 16 ^ width)
    (hwidth : 0 < width) (hescape : ∀ digits, digits? 16 width 0 digits = some code →
      readEscape? (letter :: digits) = some (text, width + 1)) :
    Stands (backslash :: letter :: Bytes.hexPadded width code) text := by
  refine stands_escape (letter :: Bytes.hexPadded width code) fun rest => ?_
  rw [length_cons, Bytes.length_hexPadded h hwidth]
  exact hescape _ (digits?_hexPadded h hwidth rest)

theorem stands_hex (h : code < 256) : Stands ("\\x" ++ Bytes.hexPadded 2 code) [code.toUInt8] := by
  refine stands_digits (Bytes.ofChar 'x') h (by decide) fun digits hread => ?_
  show (digits? 16 2 0 digits).map _ = _
  rw [hread]
  rfl

theorem stands_short (hscalar : Rune.isScalar code = true) (h : code < 0x10000) :
    Stands ("\\u" ++ Bytes.hexPadded 4 code) (Rune.encode code) := by
  refine stands_digits (Bytes.ofChar 'u') h (by decide) fun digits hread => ?_
  show (digits? 16 4 0 digits).bind _ = _
  simp only [hread, Option.bind_some, hscalar, if_true]

theorem stands_long (hscalar : Rune.isScalar code = true) :
    Stands ("\\U" ++ Bytes.hexPadded 8 code) (Rune.encode code) := by
  have hlt : code < 16 ^ 8 := by
    simp only [Rune.isScalar, Bool.or_eq_true, Bool.and_eq_true, decide_eq_true_eq] at hscalar
    omega
  refine stands_digits (Bytes.ofChar 'U') hlt (by decide) fun digits hread => ?_
  show (digits? 16 8 0 digits).bind _ = _
  simp only [hread, Option.bind_some, hscalar, if_true]

/-- The control characters that have a letter, with that letter. -/
theorem controlLetter?_eq_some {letter : Char} (h : controlLetter? code = some letter) :
    code < 0x80 ∧ ∀ rest, readEscape? (Bytes.ofChar letter :: rest) = some ([code.toUInt8], 1) := by
  unfold controlLetter? at h
  split at h <;> cases h <;> exact ⟨by decide, fun rest => rfl⟩

/-- The ways in which a character is written. -/
inductive Writes (code : Nat) : Bytes → Prop
  | guarded (h : code = (Bytes.ofChar '"').toNat ∨ code = backslash.toNat) :
      Writes code [backslash, code.toUInt8]
  | plain (hquote : code ≠ (Bytes.ofChar '"').toNat) (hslash : code ≠ backslash.toNat)
      (h : Rune.isPrintable code = true) : Writes code (Rune.encode code)
  | control {letter : Char} (h : controlLetter? code = some letter) :
      Writes code [backslash, Bytes.ofChar letter]
  | hex (h : code < 0x20 ∨ code = 0x7F) : Writes code ("\\x" ++ Bytes.hexPadded 2 code)
  | short (h : code < 0x10000) : Writes code ("\\u" ++ Bytes.hexPadded 4 code)
  | long : Writes code ("\\U" ++ Bytes.hexPadded 8 code)

theorem writes_writeRune (code : Nat) : Writes code (writeRune (Bytes.ofChar '"') code) := by
  unfold writeRune
  split
  next h => exact .guarded (by simpa using h)
  next h =>
    simp only [Bool.or_eq_true, decide_eq_true_eq, not_or] at h
    split
    next hprint => exact .plain h.1 h.2 hprint
    next =>
      split
      next letter hletter => exact .control hletter
      next =>
        split
        next hlow => exact .hex (by simpa using hlow)
        next =>
          split
          next hshort => exact .short hshort
          next => exact .long

/-- A character is read back from every way it is written. -/
theorem Writes.stands {piece : Bytes} (h : Writes code piece)
    (hscalar : Rune.isScalar code = true) : Stands piece (Rune.encode code) := by
  cases h with
  | guarded h =>
    have hlt : code < 0x80 := by rcases h with rfl | rfl <;> decide
    rw [encode_of_lt hlt]
    refine stands_escape [code.toUInt8] fun rest => ?_
    rcases h with rfl | rfl <;> rfl
  | plain hquote hslash h => exact stands_encode hscalar hslash
  | control h =>
    obtain ⟨hlt, hread⟩ := controlLetter?_eq_some h
    rw [encode_of_lt hlt]
    exact stands_escape [_] hread
  | hex h =>
    rw [encode_of_lt (by omega)]
    exact stands_hex (by omega)
  | short h => exact stands_short hscalar h
  | long => exact stands_long hscalar

/-- What holds of every piece and of pieces put together holds of a written text. -/
theorem writeFrom_induction {R : Bytes → Bytes → Prop} (hnil : R [] [])
    (happend : ∀ p q s t, R p s → R q t → R (p ++ q) (s ++ t))
    (hrune : ∀ code, Rune.isScalar code = true →
      R (writeRune (Bytes.ofChar '"') code) (Rune.encode code))
    (hbyte : ∀ b : UInt8, R ("\\x" ++ Bytes.hexPadded 2 b.toNat) [b]) (text : Bytes) :
    R (writeFrom 0 text) text := by
  have hskip (a rest : Bytes) : writeFrom a.length (a ++ rest) = writeFrom 0 rest := by
    induction a with
    | nil => rfl
    | cons b a ih => exact ih
  induction hlen : text.length using Nat.strongRecOn generalizing text with
  | ind n ih =>
    cases text with
    | nil => exact hnil
    | cons b rest =>
      rw [writeFrom]
      split
      next code width hdecode =>
        obtain ⟨hscalar, hwidth, htext⟩ := (Rune.begins_of_decode? hdecode).eq_encode
        cases hbytes : Rune.encode code with
        | nil => exact absurd hbytes (Rune.encode_ne_nil code)
        | cons c bytes =>
          rw [hbytes] at hwidth htext
          obtain ⟨rfl, hrest⟩ := List.cons.inj htext
          obtain ⟨rest, rfl⟩ : ∃ rest', rest = bytes ++ rest' := ⟨_, hrest⟩
          have hwidth : width - 1 = bytes.length := by simp [← hwidth]
          have hcode := hrune code hscalar
          rw [hbytes] at hcode
          rw [hwidth, hskip, ← cons_append]
          refine happend _ _ _ _ hcode (ih _ ?_ _ rfl)
          simp only [← hlen, length_cons, length_append]
          omega
      next hdecode =>
        exact happend _ _ [b] rest (hbyte b) (ih rest.length (by simp [← hlen]) rest rfl)

/-- A written text is read back. -/
theorem read?_writeFrom (text : Bytes) : read? (writeFrom 0 text) = some text := by
  have hstands : Stands (writeFrom 0 text) text := by
    refine writeFrom_induction (fun rest => ?_) (fun p q s t hp hq rest => ?_)
      (fun code hscalar => (writes_writeRune code).stands hscalar) (fun b => ?_) text
    · cases h : readFrom 0 rest <;> simp [h]
    · rw [append_assoc, hp, hq, Option.map_map]
      congr 1
      funext rest
      simp
    · have hhex := stands_hex b.toNat_lt
      rwa [show b.toNat.toUInt8 = b from UInt8.ofNat_toNat] at hhex
  have hread := hstands []
  simpa [read?, readFrom] using hread

end Quoted

namespace Code.Token

/-- The bytes of `piece` stand inside a string as they are, whatever follows. -/
def Unbroken (piece : Bytes) : Prop :=
  ∀ rest, stringContent? (piece ++ rest) =
    (stringContent? rest).map fun (content, after) => (piece ++ content, after)

theorem Unbroken.nil : Unbroken [] := by
  intro rest
  cases h : stringContent? rest <;> simp [h]

theorem Unbroken.append {p q : Bytes} (hp : Unbroken p) (hq : Unbroken q) : Unbroken (p ++ q) := by
  intro rest
  rw [append_assoc, hp, hq, Option.map_map]
  congr 1
  funext ⟨content, after⟩
  simp

/-- Bytes that do not end a string and protect nothing. -/
def Inert (b : UInt8) : Prop :=
  b ≠ Bytes.ofChar '"' ∧ b ≠ Bytes.ofChar '\n' ∧ b ≠ Bytes.ofChar '\\'

theorem unbroken_of_inert {piece : Bytes} (h : ∀ b ∈ piece, Inert b) : Unbroken piece := by
  induction piece with
  | nil => exact .nil
  | cons b piece ih =>
    intro rest
    obtain ⟨hquote, hline, hslash⟩ := h b mem_cons_self
    rw [cons_append, stringContent?.eq_def]
    simp only [if_neg hquote, if_neg hline, if_neg hslash]
    rw [ih (fun c hc => h c (mem_cons_of_mem _ hc)) rest, Option.map_map]
    rfl

theorem unbroken_escape {b : UInt8} {piece : Bytes} (h : ∀ c ∈ piece, Inert c) :
    Unbroken (Quoted.backslash :: b :: piece) := by
  intro rest
  show (stringContent? (piece ++ rest)).map _ = _
  rw [unbroken_of_inert h rest, Option.map_map]
  rfl

theorem inert_of_mem_hexPadded {width n : Nat} : ∀ b ∈ Bytes.hexPadded width n, Inert b := by
  have hdigits : ∀ d < 16, Inert (Bytes.ofChar (Nat.digitChar d)) := by
    unfold Inert
    decide
  intro b hb
  rcases mem_append.mp hb with hb | hb
  · rw [eq_of_mem_replicate hb]
    exact hdigits 0 (by decide)
  · exact Bytes.forall_mem_digits (by decide) hdigits n b hb

theorem inert_of_mem_encode {code : Nat} (hscalar : Rune.isScalar code = true)
    (hquote : code ≠ (Bytes.ofChar '"').toNat) (hline : code ≠ (Bytes.ofChar '\n').toNat)
    (hslash : code ≠ (Bytes.ofChar '\\').toNat) : ∀ b ∈ Rune.encode code, Inert b := by
  intro b hb
  have hcases : b.toNat = code ∨ 0x80 ≤ b.toNat := Rune.mem_encode hscalar b hb
  have hvalues : (Bytes.ofChar '"').toNat < 0x80 ∧ (Bytes.ofChar '\n').toNat < 0x80 ∧
      (Bytes.ofChar '\\').toNat < 0x80 := by decide
  refine ⟨?_, ?_, ?_⟩ <;> rintro rfl <;> omega

theorem unbroken_writeFrom (text : Bytes) : Unbroken (Quoted.writeFrom 0 text) := by
  refine Quoted.writeFrom_induction (R := fun piece _ => Unbroken piece) .nil
    (fun p q _ _ hp hq => hp.append hq) (fun code hscalar => ?_)
    (fun b => unbroken_escape inert_of_mem_hexPadded) text
  generalize Quoted.writeRune (Bytes.ofChar '"') code = piece,
    Quoted.writes_writeRune code = hwrites
  cases hwrites with
  | guarded h | control h => exact unbroken_escape (by simp)
  | plain hquote hslash h =>
    refine unbroken_of_inert (inert_of_mem_encode hscalar hquote ?_ hslash)
    rintro rfl
    exact absurd h (by decide +kernel)
  | hex h | short h | long => exact unbroken_escape inert_of_mem_hexPadded

/-- A text between quotes is a string token. -/
theorem stringContent?_writeFrom (text rest : Bytes) :
    stringContent? (Quoted.writeFrom 0 text ++ Bytes.ofChar '"' :: rest) =
      some (Quoted.writeFrom 0 text, rest) := by
  rw [unbroken_writeFrom text, stringContent?.eq_def]
  simp

end Code.Token

end X64Backend
