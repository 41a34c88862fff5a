import Mathlib.Algebra.Order.Ring.Nat
import X64Backend.Text.Numeral

/-! # Numbers written in digits

The digits of a number are read back one by one. Each reader of digits carries the value read
so far, so what is shown of it is how that value moves along the digits of a number.
-/

namespace X64Backend

open List

namespace Bytes

/-- The digits of a number are those of its quotient and its last one. -/
theorem digits_eq_if {base : Nat} (hbase : 1 < base) (n : Nat) : digits base n =
    if n < base then [ofChar n.digitChar]
    else digits base (n / base) ++ [ofChar (n % base).digitChar] := by
  unfold digits
  rw [Nat.toDigits_eq_if hbase]
  split <;> simp

theorem digits_ne_nil (base n : Nat) : digits base n ≠ [] := by
  simp [digits]

/-- A property of the digits below a base is one of the digits of every number. -/
theorem forall_mem_digits {base : Nat} (hbase : 1 < base) {P : UInt8 → Prop}
    (h : ∀ d < base, P (ofChar d.digitChar)) (n : Nat) : ∀ b ∈ digits base n, P b := by
  induction n using Nat.strongRecOn with
  | ind n ih =>
    grind [digits_eq_if, Nat.div_lt_self, mem_singleton, Nat.mod_lt]

/-- No number but zero is written with a leading zero. -/
theorem head?_digits {base : Nat} (hbase : 1 < base) (hbase' : base ≤ 16) {n : Nat} (hn : 0 < n) :
    ∃ d, 0 < d ∧ d < base ∧ (digits base n).head? = some (ofChar d.digitChar) := by
  induction n using Nat.strongRecOn with
  | ind n ih =>
    rw [digits_eq_if hbase]
    split
    next hlt => exact ⟨n, hn, hlt, rfl⟩
    next hle =>
      have hpos : 0 < n / base := Nat.div_pos (by omega) (by omega)
      obtain ⟨d, hd, hlt, hhead⟩ := ih (n / base) (Nat.div_lt_self (by omega) hbase) hpos
      exact ⟨d, hd, hlt, by rw [head?_append, hhead]; rfl⟩

theorem length_hexPadded {width n : Nat} (h : n < 16 ^ width) (hwidth : 0 < width) :
    (hexPadded width n).length = width := by
  have hlen : (digits 16 n).length ≤ width := by
    rw [digits, length_map]
    exact (Nat.length_toDigits_le_iff (by decide) hwidth).mpr h
  simp only [hexPadded, length_append, length_replicate]
  omega

end Bytes

namespace Quoted

/-- Reading the digits `ds` moves the value from `v` to `w`. -/
def Moves (base : Nat) (ds : Bytes) (v w : Nat) : Prop :=
  ∀ count rest, digits? base (ds.length + count) v (ds ++ rest) = digits? base count w rest

namespace Moves

variable {base u v w : Nat} {ds es : Bytes}

theorem append (hds : Moves base ds u v) (hes : Moves base es v w) : Moves base (ds ++ es) u w := by
  intro count rest
  rw [length_append, Nat.add_assoc, append_assoc, hds, hes]

theorem digit {d : Nat} (hd : d < base) (hbase : base ≤ 16) (v : Nat) :
    Moves base [Bytes.ofChar d.digitChar] v (v * base + d) := by
  intro count rest
  have hvalue : ∀ d < 16, hexValue? (Bytes.ofChar d.digitChar) = some d := by decide
  rw [length_singleton, Nat.add_comm, singleton_append, digits?, hvalue d (by omega)]
  simp only [hd, if_true]

theorem zeros (hbase : 1 < base) (hbase' : base ≤ 16) (n : Nat) :
    Moves base (List.replicate n (Bytes.ofChar '0')) 0 0 := by
  induction n with
  | zero =>
    intro count rest
    rw [replicate_zero, length_nil, Nat.zero_add, nil_append]
  | succ n ih =>
    have hdigit := digit (d := 0) (by omega) hbase' 0
    rw [Nat.zero_mul, Nat.add_zero] at hdigit
    exact hdigit.append ih

theorem number (hbase : 1 < base) (hbase' : base ≤ 16) (n : Nat) :
    Moves base (Bytes.digits base n) 0 n := by
  induction n using Nat.strongRecOn with
  | ind n ih =>
    rw [Bytes.digits_eq_if hbase]
    split
    next hlt =>
      have hdigit := digit hlt hbase' 0
      rwa [Nat.zero_mul, Nat.zero_add] at hdigit
    next hle =>
      have hlast := digit (Nat.mod_lt n (by omega)) hbase' (n / base)
      rw [Nat.div_add_mod'] at hlast
      exact (ih (n / base) (Nat.div_lt_self (by omega) hbase)).append hlast

end Moves

/-- A padded hexadecimal number is read back. -/
theorem digits?_hexPadded {width n : Nat} (h : n < 16 ^ width) (hwidth : 0 < width) (rest : Bytes) :
    digits? 16 width 0 (Bytes.hexPadded width n ++ rest) = some n := by
  have hlen := Bytes.length_hexPadded h hwidth
  have hmoves : Moves 16 (Bytes.hexPadded width n) 0 n :=
    (Moves.zeros (by decide) (by decide) _).append (.number (by decide) (by decide) n)
  have hread := hmoves 0 rest
  rw [hlen, Nat.add_zero] at hread
  rw [hread, digits?]

end Quoted

namespace Numeral

/-- The decimal digits of a number below 2^64 are read back. -/
theorem readDigits_ofNat {n : Nat} (h : n < 2 ^ 64) (rest : Bytes) :
    readDigits 10 0 (Bytes.ofNat n ++ rest) = readDigits 10 n rest := by
  have hdigit (v d : Nat) (hd : d < 10) (hfits : v * 10 + d < 2 ^ 64) (rest : Bytes) :
      readDigits 10 v (Bytes.ofChar d.digitChar :: rest) = readDigits 10 (v * 10 + d) rest := by
    have hvalue : ∀ d < 10, digitValue? (Bytes.ofChar d.digitChar) = some d := by decide
    rw [readDigits, hvalue d hd]
    simp only
    rw [if_neg (by omega), if_neg (by omega)]
  induction n using Nat.strongRecOn generalizing rest with
  | ind n ih =>
    unfold Bytes.ofNat at ih ⊢
    rw [Bytes.digits_eq_if (by decide)]
    split
    next hlt =>
      have := hdigit 0 n hlt (by omega) rest
      rwa [Nat.zero_mul, Nat.zero_add] at this
    next hle =>
      rw [append_assoc, ih (n / 10) (by omega) (by omega), singleton_append,
        hdigit _ _ (Nat.mod_lt _ (by decide)) (by omega), Nat.div_add_mod']

theorem wellSeparated_of_forall {text : Bytes} (h : ∀ b ∈ text, b ≠ Bytes.ofChar '_') :
    wellSeparated true text = true := by
  induction text with
  | nil => rfl
  | cons b rest ih =>
    rw [wellSeparated, if_neg (h b mem_cons_self)]
    exact ih fun c hc => h c (mem_cons_of_mem _ hc)

/-- The decimal text of a number is read as that number. -/
theorem readMagnitude_ofNat {n : Nat} (h : n < 2 ^ 64) : readMagnitude (Bytes.ofNat n) = .ok n := by
  have hplain : ∀ b ∈ Bytes.ofNat n, b ≠ Bytes.ofChar '_' :=
    Bytes.forall_mem_digits (by decide) (by decide) n
  have hread : readDigits 10 0 (Bytes.ofNat n) = .ok n := by
    have := readDigits_ofNat h []
    rwa [append_nil] at this
  rcases Nat.eq_zero_or_pos n with rfl | hpos
  · rfl
  · obtain ⟨d, hd, hlt, hhead⟩ := Bytes.head?_digits (by decide : 1 < 10) (by decide) hpos
    have hnonzero : ∀ d < 10, 0 < d → Bytes.ofChar d.digitChar ≠ Bytes.ofChar '0' := by decide
    have hnonzero := hnonzero d hlt hd
    cases htext : Bytes.ofNat n with
    | nil => exact absurd htext (Bytes.digits_ne_nil 10 n)
    | cons b rest =>
      have hb : b = Bytes.ofChar d.digitChar := by
        grind [Bytes.ofNat, Option.some.inj]
      rw [htext] at hplain hread
      have hfilter : (b :: rest).filter (· ≠ Bytes.ofChar '_') = b :: rest :=
        filter_eq_self.mpr fun c hc => by simpa using hplain c hc
      have hseparated : wellSeparated false (b :: rest) = true := by
        rw [wellSeparated, if_neg (hplain b mem_cons_self)]
        exact wellSeparated_of_forall fun c hc => hplain c (mem_cons_of_mem _ hc)
      unfold readMagnitude
      simp only
      rw [if_neg (hb ▸ hnonzero), readSeparated, hfilter, hread]
      show (if wellSeparated false (b :: rest) = true then _ else _) = _
      rw [if_pos hseparated]
      rfl

/-- The decimal text of a word that is not negative is read as that word. -/
theorem readSource_ofNat {n : Nat} (h : n < 2 ^ 63) :
    readSource (Bytes.ofNat n) = .ok (Int64.ofNat n) := by
  rw [readSource, readMagnitude_ofNat (by omega)]
  show (if n < 0x8000000000000000 then _ else _) = _
  rw [if_pos (by omega)]
  rfl

/-- The decimal text of a word reads as that word. -/
theorem readDecimal_ofWord (v : Int64) : readDecimal (Bytes.ofWord v) = .ok v := by
  have hlo := v.le_toInt
  have hhi := v.toInt_lt
  have hmagnitude {n : Nat} (hn : n < 2 ^ 64) : readDigits 10 0 (Bytes.ofNat n) = .ok n := by
    simpa [readDigits] using readDigits_ofNat hn []
  have hempty (n : Nat) : (Bytes.ofNat n).isEmpty = false :=
    isEmpty_eq_false_iff.mpr (Bytes.digits_ne_nil 10 n)
  rw [Bytes.ofWord]
  cases hv : v.toInt with
  | ofNat n =>
    rw [Int.ofNat_eq_natCast] at hv
    have hsigns : ∀ b ∈ Bytes.ofNat n, b ≠ Bytes.ofChar '-' ∧ b ≠ Bytes.ofChar '+' :=
      Bytes.forall_mem_digits (by decide) (by decide) n
    obtain ⟨b, ds, hds⟩ : ∃ b ds, Bytes.ofNat n = b :: ds :=
      exists_cons_of_ne_nil (Bytes.digits_ne_nil 10 n)
    obtain ⟨hminus, hplus⟩ := hsigns b (hds ▸ mem_cons_self)
    have hread := hmagnitude (n := n) (by omega)
    have hvalue : n < 0x8000000000000000 := by omega
    rw [hds] at hread
    simp only [Bytes.ofInt, readDecimal, hds, if_neg hminus, if_neg hplus, isEmpty_cons, hread,
      Bool.false_eq_true, if_false]
    show (if n < 0x8000000000000000 then _ else _) = _
    rw [if_pos hvalue, ← Int64.ofInt_eq_ofNat, ← hv, Int64.ofInt_toInt]
    rfl
  | negSucc n =>
    rw [Int.negSucc_eq] at hv
    have hvalue : n + 1 ≤ 0x8000000000000000 := by omega
    simp only [Bytes.ofInt, readDecimal, if_pos, hempty, hmagnitude (n := n + 1) (by omega),
      Bool.false_eq_true, if_false]
    show (if n + 1 ≤ 0x8000000000000000 then _ else _) = _
    rw [if_pos hvalue, Int.natCast_add, Int.natCast_one, ← hv, Int64.ofInt_toInt]
    rfl

end Numeral

end X64Backend
