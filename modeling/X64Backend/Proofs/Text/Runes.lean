import Mathlib.Algebra.Order.Ring.Nat
import X64Backend.Text.Rune

/-! # Characters and their bytes

The bytes of a character are read as that character, and a character that was read is made
of exactly those bytes.
-/

namespace X64Backend.Rune

open List

variable {b : UInt8} {text : Bytes} {code width : Nat}

theorem toNat_toUInt8 {n : Nat} (h : n < 256) : n.toUInt8.toNat = n := by
  rw [Nat.toUInt8, UInt8.toNat_ofNat', Nat.mod_eq_of_lt h]

theorem isTail_iff : isTail b = true ↔ 0x80 ≤ b.toNat ∧ b.toNat ≤ 0xBF := by
  simp [isTail, UInt8.le_iff_toNat_le]

/-- The second byte of a character of three bytes. -/
def IsSecondOfThree (a b : UInt8) : Prop :=
  (if a.toNat = 0xE0 then 0xA0 else 0x80) ≤ b.toNat ∧
    b.toNat ≤ if a.toNat = 0xED then 0x9F else 0xBF

/-- The second byte of a character of four bytes. -/
def IsSecondOfFour (a b : UInt8) : Prop :=
  (if a.toNat = 0xF0 then 0x90 else 0x80) ≤ b.toNat ∧
    b.toNat ≤ if a.toNat = 0xF4 then 0x8F else 0xBF

theorem isSecondOfThree_iff {a : UInt8} : IsSecondOfThree a b ↔
    ((if a = 0xE0 then (0xA0 : UInt8) else 0x80) ≤ b && b ≤ if a = 0xED then 0x9F else 0xBF) =
      true := by
  simp only [IsSecondOfThree, Bool.and_eq_true, decide_eq_true_eq, UInt8.le_iff_toNat_le,
    ← UInt8.toNat_inj, UInt8.reduceToNat]
  split <;> split <;> simp

theorem isSecondOfFour_iff {a : UInt8} : IsSecondOfFour a b ↔
    ((if a = 0xF0 then (0x90 : UInt8) else 0x80) ≤ b && b ≤ if a = 0xF4 then 0x8F else 0xBF) =
      true := by
  simp only [IsSecondOfFour, Bool.and_eq_true, decide_eq_true_eq, UInt8.le_iff_toNat_le,
    ← UInt8.toNat_inj, UInt8.reduceToNat]
  split <;> split <;> simp

/-- The texts that begin with a character, by the number of its bytes. -/
inductive Begins : Bytes → Nat → Nat → Prop
  | one {a : UInt8} {rest : Bytes} (ha : a.toNat < 0x80) : Begins (a :: rest) a.toNat 1
  | two {a b : UInt8} {rest : Bytes} (ha : 0xC2 ≤ a.toNat) (ha' : a.toNat < 0xE0)
      (hb : isTail b = true) : Begins (a :: b :: rest) ((a.toNat - 0xC0) * 64 + tailBits b) 2
  | three {a b c : UInt8} {rest : Bytes} (ha : 0xE0 ≤ a.toNat) (ha' : a.toNat < 0xF0)
      (hb : IsSecondOfThree a b) (hc : isTail c = true) :
      Begins (a :: b :: c :: rest) (((a.toNat - 0xE0) * 64 + tailBits b) * 64 + tailBits c) 3
  | four {a b c d : UInt8} {rest : Bytes} (ha : 0xF0 ≤ a.toNat) (ha' : a.toNat < 0xF5)
      (hb : IsSecondOfFour a b) (hc : isTail c = true) (hd : isTail d = true) :
      Begins (a :: b :: c :: d :: rest)
        ((((a.toNat - 0xF0) * 64 + tailBits b) * 64 + tailBits c) * 64 + tailBits d) 4

/-- What is read of a text is what it begins with. -/
theorem begins_of_decode? (h : decode? text = some (code, width)) : Begins text code width := by
  cases text with
  | nil => cases h
  | cons a rest =>
    simp only [decode?, UInt8.lt_iff_toNat_lt, UInt8.reduceToNat] at h
    split at h
    next ha =>
      cases h
      exact .one ha
    next =>
      split at h
      · cases h
      next hlow =>
        split at h
        next ha =>
          split at h
          next b rest =>
            split at h
            next hb =>
              obtain ⟨rfl, rfl⟩ := Prod.mk.inj (Option.some.inj h)
              exact .two (by omega) ha hb
            next => cases h
          next => cases h
        next hlow =>
          split at h
          next ha =>
            split at h
            next b c rest =>
              by_cases hcond : IsSecondOfThree a b ∧ isTail c = true
              · rw [if_pos (by simp only [isSecondOfThree_iff.mp hcond.1, hcond.2, Bool.and_self])]
                  at h
                obtain ⟨rfl, rfl⟩ := Prod.mk.inj (Option.some.inj h)
                exact .three (by omega) ha hcond.1 hcond.2
              · grind [isSecondOfThree_iff]
            next => cases h
          next hlow =>
            split at h
            next ha =>
              split at h
              next b c d rest =>
                by_cases hcond : (IsSecondOfFour a b ∧ isTail c = true) ∧ isTail d = true
                · rw [if_pos (by simp only [isSecondOfFour_iff.mp hcond.1.1, hcond.1.2, hcond.2,
                    Bool.and_self])] at h
                  obtain ⟨rfl, rfl⟩ := Prod.mk.inj (Option.some.inj h)
                  exact .four (by omega) ha hcond.1.1 hcond.1.2 hcond.2
                · grind [isSecondOfFour_iff]
              next => cases h
            next => cases h

theorem Begins.decode? (h : Begins text code width) : decode? text = some (code, width) := by
  cases h with
  | one ha =>
    simp only [Rune.decode?, UInt8.lt_iff_toNat_lt, UInt8.reduceToNat]
    rw [if_pos ha]
  | two ha ha' hb =>
    simp only [Rune.decode?, UInt8.lt_iff_toNat_lt, UInt8.reduceToNat]
    rw [if_neg (by omega), if_neg (by omega), if_pos ha', if_pos hb]
  | three ha ha' hb hc =>
    simp only [Rune.decode?, UInt8.lt_iff_toNat_lt, UInt8.reduceToNat]
    rw [if_neg (by omega), if_neg (by omega), if_neg (by omega), if_pos ha']
    simp only [isSecondOfThree_iff.mp hb, hc, Bool.and_self, if_true]
  | four ha ha' hb hc hd =>
    simp only [Rune.decode?, UInt8.lt_iff_toNat_lt, UInt8.reduceToNat]
    rw [if_neg (by omega), if_neg (by omega), if_neg (by omega), if_neg (by omega), if_pos ha']
    simp only [isSecondOfFour_iff.mp hb, hc, hd, Bool.and_self, if_true]

theorem encode_ne_nil (code : Nat) : encode code ≠ [] := by
  unfold encode
  split
  · simp
  · split
    · simp
    · split <;> simp

/-- A byte with a mark in its high bits is a tail of a character. -/
theorem tail_spec {r : Nat} (hr : r < 64) :
    isTail (0x80 + r).toUInt8 = true ∧ tailBits (0x80 + r).toUInt8 = r := by
  have hvalue := toNat_toUInt8 (show 0x80 + r < 256 by omega)
  refine ⟨isTail_iff.mpr (by rw [hvalue]; omega), ?_⟩
  show UInt8.toNat _ - 0x80 = r
  rw [hvalue]
  exact Nat.add_sub_cancel_left 0x80 r

/-- The bytes of a character begin with it. -/
theorem begins_encode (h : isScalar code = true) (rest : Bytes) :
    Begins (encode code ++ rest) code (encode code).length := by
  simp only [isScalar, Bool.or_eq_true, Bool.and_eq_true, decide_eq_true_eq] at h
  unfold encode
  by_cases h1 : code < 0x80
  · grind [toNat_toUInt8, Begins.one]
  by_cases h2 : code < 0x800
  · rw [if_neg h1, if_pos h2]
    obtain ⟨hb, hlow⟩ := tail_spec (Nat.mod_lt code (show 0 < 64 by decide))
    have ha := toNat_toUInt8 (show 0xC0 + code / 64 < 256 by omega)
    have hvalue : (0xC0 + code / 64 - 0xC0) * 64 + code % 64 = code := by omega
    have hbegins := @Begins.two (0xC0 + code / 64).toUInt8 _ rest
      (by rw [ha]; omega) (by rw [ha]; omega) hb
    rw [ha, hlow, hvalue] at hbegins
    exact hbegins
  by_cases h3 : code < 0x10000
  · rw [if_neg h1, if_neg h2, if_pos h3]
    obtain ⟨hc, hlow⟩ := tail_spec (Nat.mod_lt code (show 0 < 64 by decide))
    obtain ⟨_, hmid⟩ := tail_spec (Nat.mod_lt (code / 64) (show 0 < 64 by decide))
    have ha := toNat_toUInt8 (show 0xE0 + code / 4096 < 256 by omega)
    have hb := toNat_toUInt8 (show 0x80 + code / 64 % 64 < 256 by omega)
    have hvalue : ((0xE0 + code / 4096 - 0xE0) * 64 + code / 64 % 64) * 64 + code % 64 = code := by
      omega
    have hsecond : IsSecondOfThree (0xE0 + code / 4096).toUInt8 (0x80 + code / 64 % 64).toUInt8 := by
      rw [IsSecondOfThree, ha, hb]
      split <;> split <;> omega
    have hbegins := @Begins.three (0xE0 + code / 4096).toUInt8 _ _ rest
      (by rw [ha]; omega) (by rw [ha]; omega) hsecond hc
    rw [ha, hmid, hlow, hvalue] at hbegins
    exact hbegins
  · rw [if_neg h1, if_neg h2, if_neg h3]
    obtain ⟨hd, hlow⟩ := tail_spec (Nat.mod_lt code (show 0 < 64 by decide))
    obtain ⟨hc, hmid⟩ := tail_spec (Nat.mod_lt (code / 64) (show 0 < 64 by decide))
    obtain ⟨_, hhigh⟩ := tail_spec (Nat.mod_lt (code / 4096) (show 0 < 64 by decide))
    have ha := toNat_toUInt8 (show 0xF0 + code / 262144 < 256 by omega)
    have hb := toNat_toUInt8 (show 0x80 + code / 4096 % 64 < 256 by omega)
    have hvalue : (((0xF0 + code / 262144 - 0xF0) * 64 + code / 4096 % 64) * 64 +
        code / 64 % 64) * 64 + code % 64 = code := by
      omega
    have hsecond :
        IsSecondOfFour (0xF0 + code / 262144).toUInt8 (0x80 + code / 4096 % 64).toUInt8 := by
      rw [IsSecondOfFour, ha, hb]
      split <;> split <;> omega
    have hbegins := @Begins.four (0xF0 + code / 262144).toUInt8 _ _ _ rest
      (by rw [ha]; omega) (by rw [ha]; omega) hsecond hc hd
    rw [ha, hhigh, hmid, hlow, hvalue] at hbegins
    exact hbegins

/-- A character of more than one byte has no byte below 80 in hexadecimal. -/
theorem mem_encode (h : isScalar code = true) :
    ∀ b ∈ encode code, b.toNat = code ∨ 0x80 ≤ b.toNat := by
  simp only [isScalar, Bool.or_eq_true, Bool.and_eq_true, decide_eq_true_eq] at h
  have hhigh {n : Nat} (hn : 0x80 ≤ n) (hn' : n < 256) : 0x80 ≤ n.toUInt8.toNat := by
    rw [toNat_toUInt8 hn']
    exact hn
  unfold encode
  by_cases h1 : code < 0x80
  · rw [if_pos h1]
    simp only [mem_singleton, forall_eq]
    exact .inl (toNat_toUInt8 (by omega))
  by_cases h2 : code < 0x800
  · grind
  by_cases h3 : code < 0x10000
  · rw [if_neg h1, if_neg h2, if_pos h3]
    simp only [mem_cons, not_mem_nil, or_false, forall_eq_or_imp, forall_eq]
    exact ⟨.inr (hhigh (by omega) (by omega)), .inr (hhigh (by omega) (by omega)),
      .inr (hhigh (by omega) (by omega))⟩
  · rw [if_neg h1, if_neg h2, if_neg h3]
    simp only [mem_cons, not_mem_nil, or_false, forall_eq_or_imp, forall_eq]
    exact ⟨.inr (hhigh (by omega) (by omega)), .inr (hhigh (by omega) (by omega)),
      .inr (hhigh (by omega) (by omega)), .inr (hhigh (by omega) (by omega))⟩

/-- A character that was read is made of its bytes. -/
theorem Begins.eq_encode (h : Begins text code width) :
    isScalar code = true ∧ (encode code).length = width ∧ text = encode code ++ text.drop width := by
  have htoUInt8 (a : UInt8) : a.toNat.toUInt8 = a := UInt8.ofNat_toNat
  simp only [isScalar, Bool.or_eq_true, Bool.and_eq_true, decide_eq_true_eq]
  cases h with
  | @one a rest ha =>
    refine ⟨by omega, ?_⟩
    rw [encode, if_pos ha, htoUInt8]
    exact ⟨rfl, rfl⟩
  | @two a b rest ha ha' hb =>
    have hb := isTail_iff.mp hb
    have hlow : tailBits b = b.toNat - 0x80 := rfl
    refine ⟨by omega, ?_⟩
    generalize hcode : (a.toNat - 0xC0) * 64 + tailBits b = code
    rw [encode, if_neg (by omega), if_pos (by omega),
      show 0xC0 + code / 64 = a.toNat by omega,
      show 0x80 + code % 64 = b.toNat by omega, htoUInt8, htoUInt8]
    exact ⟨rfl, rfl⟩
  | @three a b c rest ha ha' hb hc =>
    obtain ⟨hlo, hhi⟩ := hb
    have hc := isTail_iff.mp hc
    have hmid : tailBits b = b.toNat - 0x80 := rfl
    have hlow : tailBits c = c.toNat - 0x80 := rfl
    -- The second byte leaves out what two bytes hold, and surrogates.
    have hbounds : 0x80 ≤ b.toNat ∧ b.toNat ≤ 0xBF ∧ (a.toNat = 0xE0 → 0xA0 ≤ b.toNat) ∧
        (a.toNat = 0xED → b.toNat ≤ 0x9F) := by
      split at hlo <;> split at hhi <;> omega
    clear hlo hhi
    refine ⟨by omega, ?_⟩
    generalize hcode : ((a.toNat - 0xE0) * 64 + tailBits b) * 64 + tailBits c = code
    rw [encode, if_neg (by omega), if_neg (by omega), if_pos (by omega),
      show 0xE0 + code / 4096 = a.toNat by omega,
      show 0x80 + code / 64 % 64 = b.toNat by omega,
      show 0x80 + code % 64 = c.toNat by omega, htoUInt8, htoUInt8, htoUInt8]
    exact ⟨rfl, rfl⟩
  | @four a b c d rest ha ha' hb hc hd =>
    obtain ⟨hlo, hhi⟩ := hb
    have hc := isTail_iff.mp hc
    have hd := isTail_iff.mp hd
    have hhigh : tailBits b = b.toNat - 0x80 := rfl
    have hmid : tailBits c = c.toNat - 0x80 := rfl
    have hlow : tailBits d = d.toNat - 0x80 := rfl
    -- The second byte leaves out what three bytes hold, and what is beyond the last character.
    have hbounds : 0x80 ≤ b.toNat ∧ b.toNat ≤ 0xBF ∧ (a.toNat = 0xF0 → 0x90 ≤ b.toNat) ∧
        (a.toNat = 0xF4 → b.toNat ≤ 0x8F) := by
      split at hlo <;> split at hhi <;> omega
    clear hlo hhi
    refine ⟨by omega, ?_⟩
    generalize hcode : (((a.toNat - 0xF0) * 64 + tailBits b) * 64 + tailBits c) * 64 +
      tailBits d = code
    rw [encode, if_neg (by omega), if_neg (by omega), if_neg (by omega),
      show 0xF0 + code / 262144 = a.toNat by omega,
      show 0x80 + code / 4096 % 64 = b.toNat by omega,
      show 0x80 + code / 64 % 64 = c.toNat by omega,
      show 0x80 + code % 64 = d.toNat by omega, htoUInt8, htoUInt8, htoUInt8, htoUInt8]
    exact ⟨rfl, rfl⟩

end X64Backend.Rune
