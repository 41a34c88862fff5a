import X64Backend.Proofs.Machine.Effects

/-! # Strings in memory

A string is its length and then its bytes, a word each.
-/

namespace X64Backend.Machine

open List

/-- The bytes that a string takes: a word for its length and a word for each byte. -/
def textSize (text : Bytes) : Int := 8 + 8 * text.length

theorem toInt_textSize {text : Bytes} (h : text.length < 2 ^ 58) :
    (8 + 8 * Int64.ofNat text.length).toInt = textSize text := by
  have hwords := toInt_eight_mul (i := text.length) (by omega)
  have h8 : (8 : Int64).toInt = 8 := rfl
  rw [toInt_add_of_fits, hwords, h8]
  · rfl
  · omega
  · omega

theorem toInt_behind_text {a : Int64} {text : Bytes} (ha : dataStart.toInt ≤ a.toInt)
    (hfit : a.toInt + textSize text ≤ heapLimit.toInt) :
    (a + 8 + 8 * Int64.ofNat text.length).toInt = a.toInt + textSize text := by
  have hstart : dataStart.toInt = 0x1000 := rfl
  have hlimit : heapLimit.toInt = 0x77F00000 := rfl
  rw [textSize] at hfit
  have hlength : text.length < 2 ^ 58 := by omega
  have hsize := toInt_textSize hlength
  rw [Int64.add_assoc, toInt_add_of_fits, hsize]
  · rw [hsize, textSize]
    omega
  · rw [hsize, textSize]
    omega

theorem length_readAll (m : Memory) (n : Nat) (a : Int64) : (m.readAll n a).length = n := by
  induction n generalizing a with
  | zero => rfl
  | succ n ih => rw [Memory.readAll, length_cons, ih]

namespace Memory

variable {m m' : Memory} {a b : Int64} {text : Bytes}

/-- The words from `a` on are a string. Only the low byte of a word behind its length counts. -/
structure Holds (m : Memory) (a : Int64) (text : Bytes) : Prop where
  length : m.read a = Int64.ofNat text.length
  bytes : (m.readAll text.length (a + 8)).map (fun w => w.toUInt64.toUInt8) = text

theorem toInt_add_eight (h : a.toInt + 8 < 2 ^ 63) : (a + 8).toInt = a.toInt + 8 := by
  have hlo := a.le_toInt
  have h8 : (8 : Int64).toInt = 8 := rfl
  rw [toInt_add_of_fits (by omega) (by omega), h8]

theorem readAll_congr {n : Nat} (hfits : a.toInt + 8 * n < 2 ^ 63)
    (h : ∀ b, a.toInt ≤ b.toInt → b.toInt < a.toInt + 8 * n → m'.read b = m.read b) :
    m'.readAll n a = m.readAll n a := by
  induction n generalizing a with
  | zero => rfl
  | succ n ih =>
    have hnext := toInt_add_eight (a := a) (by omega)
    rw [readAll, readAll, h a (Int.le_refl _) (by omega),
      ih (by omega) fun b hlo hhi => h b (by omega) (by omega)]

theorem read_writeAll_of_lt {vs : List Int64} (hfits : a.toInt + 8 * vs.length < 2 ^ 63)
    (hb : b.toInt < a.toInt) : (m.writeAll a vs).read b = m.read b := by
  induction vs generalizing m a with
  | nil => rfl
  | cons v rest ih =>
    grind [length_cons, toInt_add_eight, writeAll, read_write]

theorem readAll_writeAll {vs : List Int64} (hfits : a.toInt + 8 * vs.length < 2 ^ 63) :
    (m.writeAll a vs).readAll vs.length a = vs := by
  induction vs generalizing m a with
  | nil => rfl
  | cons v rest ih =>
    rw [length_cons] at hfits
    have hnext := toInt_add_eight (a := a) (by omega)
    rw [writeAll, length_cons, readAll, ih (by omega),
      read_writeAll_of_lt (by omega) (by omega), read_write, if_pos rfl]

theorem read_zeroAll_of_lt {n : Nat} (hfits : a.toInt + 8 * n < 2 ^ 63) (hb : b.toInt < a.toInt) :
    (m.zeroAll n a).read b = m.read b := by
  induction n generalizing m a with
  | zero => rfl
  | succ n ih =>
    have hnext := toInt_add_eight (a := a) (by omega)
    have hne : ¬ compare a b = .eq := fun h => by
      rw [Std.LawfulEqCmp.eq_of_compare h] at hb
      omega
    rw [zeroAll, ih (by omega) (by omega), read, Std.TreeMap.getD_erase, if_neg hne, read]

theorem read_zeroRange_of_lt {low high : Int64} (hle : low.toInt ≤ high.toInt)
    (hfits : high.toInt + 8 < 2 ^ 63) (hb : b.toInt < low.toInt) :
    (m.zeroRange low high).read b = m.read b := by
  unfold zeroRange
  simp only
  split
  · exact read_zeroAll_of_lt (by omega) hb
  · grind [Int64.le_iff_toInt_le, read, Std.TreeMap.getD_filter,
      Std.TreeMap.getD_eq_getD_getElem?, Option.filter]

/-- Writing a string changes no word before it. -/
theorem read_writeText_of_lt (hfits : a.toInt + textSize text < 2 ^ 63) (hb : b.toInt < a.toInt) :
    (m.writeText a text).read b = m.read b := by
  rw [textSize] at hfits
  refine read_writeAll_of_lt ?_ hb
  rw [length_cons, length_map]
  omega

/-- A string that was written is there. -/
theorem holds_writeText (hfits : a.toInt + textSize text < 2 ^ 63) :
    (m.writeText a text).Holds a text := by
  rw [textSize] at hfits
  have hwords := @readAll_writeAll m a
    (Int64.ofNat text.length :: text.map fun b => Int64.ofNat b.toNat)
    (by rw [length_cons, length_map]; omega)
  rw [length_cons, length_map, readAll] at hwords
  obtain ⟨hlength, hbytes⟩ := List.cons.inj hwords
  refine ⟨hlength, ?_⟩
  rw [writeText, hbytes, map_map]
  simp [Function.comp_def]

/-- A string is there as long as its words are. -/
theorem Holds.congr (h : m.Holds a text) (hfits : a.toInt + textSize text < 2 ^ 63)
    (heq : ∀ b, a.toInt ≤ b.toInt → b.toInt < a.toInt + textSize text → m'.read b = m.read b) :
    m'.Holds a text := by
  rw [textSize] at hfits heq
  have hnext := toInt_add_eight (a := a) (by omega)
  refine ⟨(heq a (Int.le_refl _) (by omega)).trans h.length, ?_⟩
  rw [readAll_congr (by omega) fun b hlo hhi => heq b (by omega) (by omega)]
  exact h.bytes

end Memory

/-- A string can be read if and only if it is there, in memory that can be used. -/
theorem readText_eq_ok_iff {s : State} {a : Int64} {text : Bytes} : s.readText a = .ok text ↔
    a.toInt % 8 = 0 ∧ dataStart.toInt ≤ a.toInt ∧ a.toInt + textSize text ≤ stackTop.toInt ∧
      s.memory.Holds a text := by
  have hstart : dataStart.toInt = 0x1000 := rfl
  have htop : stackTop.toInt = 0x78000000 := rfl
  constructor
  · intro h
    obtain ⟨n, hload, h⟩ := bind_eq_ok.mp h
    obtain ⟨hcheck, rfl⟩ := load_eq_ok.mp hload
    obtain ⟨haligned, hlow, _⟩ := checkAddress_eq_ok_iff.mp hcheck
    split at h
    · cases h
    next hneg =>
      split at h
      · cases h
      · split at h
        · cases h
        next hend =>
          cases h
          have hnonneg : 0 ≤ (s.memory.read a).toInt :=
            Int64.le_iff_toInt_le.mp (Int64.not_lt.mp hneg)
          have hcount : (s.memory.read a).toInt.toNat = (s.memory.read a).toInt :=
            Int.toNat_of_nonneg hnonneg
          refine ⟨haligned, hlow, ?_, ?_, ?_⟩
          · rw [textSize, length_map, length_readAll]
            omega
          · rw [length_map, length_readAll, ← Int64.ofInt_eq_ofNat, hcount, Int64.ofInt_toInt]
          · rw [length_map, length_readAll]
  · rintro ⟨haligned, hlow, hend, hheld⟩
    rw [textSize] at hend
    have hcheck := checkAddress_eq_ok_iff.mpr ⟨haligned, hlow, by omega⟩
    have hcount : (Int64.ofNat text.length).toInt = text.length :=
      Int64.toInt_ofNat_of_lt (by omega)
    have hneg : ¬ Int64.ofNat text.length < 0 := fun h => by
      have := Int64.lt_iff_toInt_lt.mp h
      have h0 : (0 : Int64).toInt = 0 := rfl
      omega
    have hmax : maxTextLength = 0x1000000000000 := rfl
    refine bind_eq_ok.mpr ⟨_, load_eq_ok.mpr ⟨hcheck, rfl⟩, ?_⟩
    rw [hheld.length, if_neg hneg, hcount, if_neg (by omega), if_neg (by omega), Int.toNat_natCast,
      hheld.bytes]
    rfl

/-- A string that can be read lies below the top of the stack. -/
theorem length_readText_lt {s : State} {a : Int64} {text : Bytes} (h : s.readText a = .ok text) :
    text.length < 2 ^ 57 := by
  have hstart : dataStart.toInt = 0x1000 := rfl
  have htop : stackTop.toInt = 0x78000000 := rfl
  obtain ⟨_, hlow, hend, _⟩ := readText_eq_ok_iff.mp h
  rw [textSize] at hend
  omega

end X64Backend.Machine
