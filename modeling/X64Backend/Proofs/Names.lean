import Mathlib.Algebra.Order.Ring.Nat
import X64Backend.Asm.Instr

/-! # Names of registers

The names that registers are issued under are different from each other, from the names
that keep callee-saved registers and from those of machine registers. A register is
proper if its name leads back to it; all registers that code gets by name are.
-/

namespace X64Backend

open List

namespace Bytes

theorem ofChar_inj_of_isDigit {a b : Char} (ha : a.isDigit = true) (hb : b.isDigit = true)
    (h : ofChar a = ofChar b) : a = b := by
  simp only [Char.isDigit, Bool.and_eq_true, decide_eq_true_eq, UInt32.le_iff_toNat_le] at ha hb
  have hval := congrArg UInt8.toNat h
  simp only [ofChar, UInt8.toNat_ofNat'] at hval
  have ha' : a.toNat ≤ 57 := ha.2
  have hb' : b.toNat ≤ 57 := hb.2
  rw [Nat.mod_eq_of_lt (by omega), Nat.mod_eq_of_lt (by omega)] at hval
  exact Char.toNat_inj.mp hval

theorem map_ofChar_inj {as bs : List Char} (ha : ∀ c ∈ as, c.isDigit = true)
    (hb : ∀ c ∈ bs, c.isDigit = true) (h : as.map ofChar = bs.map ofChar) : as = bs := by
  induction as generalizing bs with
  | nil => simpa [eq_comm] using h
  | cons a as ih =>
    cases bs with
    | nil => simp at h
    | cons b bs =>
      grind [List.cons.injEq, ofChar_inj_of_isDigit, mem_cons_self,
        mem_cons_of_mem]

/-- Different numbers have different texts. -/
theorem ofNat_inj {m n : Nat} : ofNat m = ofNat n ↔ m = n := by
  constructor
  · intro h
    have hdigits : Nat.toDigits 10 m = Nat.toDigits 10 n :=
      map_ofChar_inj (fun _ hc => Nat.isDigit_of_mem_toDigits (by omega) (by omega) hc)
        (fun _ hc => Nat.isDigit_of_mem_toDigits (by omega) (by omega) hc) h
    have hm : Nat.ofDigitChars 10 (Nat.toDigits 10 m) 0 = m := Nat.ofDigitChars_ten_toDigits
    have hn : Nat.ofDigitChars 10 (Nat.toDigits 10 n) 0 = n := Nat.ofDigitChars_ten_toDigits
    rw [← hm, ← hn, hdigits]
  · rintro rfl
    rfl

end Bytes

namespace Asm.Reg

@[simp] theorem issued_inj {m n : Nat} : issued m = issued n ↔ m = n := by
  simp [issued, Bytes.ofNat_inj]

/-- A name that begins with an underscore is no machine register's. -/
theorem ofName_underscore (rest : Name) :
    ofName (Bytes.ofChar '_' :: rest) = .abstract (Bytes.ofChar '_' :: rest) := by
  have hrip : Bytes.ofChar '_' :: rest ≠ ("rip" : Name) := by
    intro h
    have hhead := congrArg List.head? h
    rw [head?_cons] at hhead
    revert hhead
    decide
  have hmachine : MachineReg.all.find? (fun r => r.name = Bytes.ofChar '_' :: rest) = none := by
    rw [find?_eq_none]
    intro r _ h
    have hhead := congrArg List.head? (of_decide_eq_true h)
    rw [head?_cons] at hhead
    revert hhead
    cases r <;> decide
  rw [ofName, if_neg hrip, hmachine]

theorem ofName_issued (n : Nat) : ofName (issued n).name = issued n :=
  ofName_underscore _

theorem ofName_saved (r : Reg) : ofName (saved r).name = saved r :=
  ofName_underscore _

theorem ofName_machine (r : MachineReg) : ofName (machine r).name = machine r := by
  cases r <;> decide

/-- A register that its name leads back to. -/
def Proper (r : Reg) : Prop := ofName r.name = r

theorem Proper.name_inj {r q : Reg} (hr : r.Proper) (hq : q.Proper) :
    r.name = q.name ↔ r = q := by
  constructor
  · intro h
    rw [← hr, ← hq, h]
  · rintro rfl
    rfl

theorem eq_of_ofName_eq_abstract {n k : Name} (h : ofName n = .abstract k) : k = n := by
  unfold ofName at h
  split at h
  · cases h
  · split at h
    · cases h
    · cases h
      rfl

theorem proper_ofName (n : Name) : (ofName n).Proper := by
  unfold Proper
  cases h : ofName n with
  | machine r => exact ofName_machine r
  | rip => decide
  | abstract k =>
    obtain rfl := eq_of_ofName_eq_abstract h
    exact h

end Asm.Reg

end X64Backend
