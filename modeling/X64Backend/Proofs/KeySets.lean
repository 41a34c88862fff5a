import Mathlib.Algebra.Order.Ring.Nat
import Mathlib.Data.Finset.Card
import X64Backend.BitSet

/-! # Key sets are finite sets

Membership decides everything that a key set shows. Its list is in increasing order, so that the
smallest key, the number of keys and what a visitor sees are those of the finite set of its keys.
Changes to several sets, each with storage of its own, are the changes of the finite sets.
-/

namespace X64Backend

open List

namespace KeySet

variable {s t : KeySet} {j k : Nat}

@[simp] theorem not_mem_empty : k ∉ empty := by
  show ¬ empty.contains k = true
  simp

@[simp, grind =] theorem mem_insert : j ∈ s.insert k ↔ j ∈ s ∨ j = k := by
  show (s.insert k).contains j = true ↔ s.contains j = true ∨ j = k
  simp

@[simp] theorem mem_union : k ∈ s.union t ↔ k ∈ s ∨ k ∈ t := by
  show (s.union t).contains k = true ↔ s.contains k = true ∨ t.contains k = true
  simp

@[simp] theorem mem_inter : k ∈ s.inter t ↔ k ∈ s ∧ k ∈ t := by
  show (s.inter t).contains k = true ↔ s.contains k = true ∧ t.contains k = true
  simp

@[simp] theorem mem_diff : k ∈ s.diff t ↔ k ∈ s ∧ k ∉ t := by
  show (s.diff t).contains k = true ↔ s.contains k = true ∧ ¬ t.contains k = true
  simp

@[simp, grind =] theorem mem_erase : j ∈ s.erase k ↔ j ∈ s ∧ j ≠ k := by
  show (s.erase k).contains j = true ↔ s.contains j = true ∧ j ≠ k
  simp

theorem contains_iff_mem : s.contains k = true ↔ k ∈ s := Iff.rfl

theorem contains_eq_false : s.contains k = false ↔ k ∉ s := by
  rw [← contains_iff_mem, Bool.not_eq_true]

/-- Two sets with the same keys are the same. -/
theorem ext_mem (h : ∀ k, k ∈ s ↔ k ∈ t) : s = t :=
  ext_contains fun k => Bool.eq_iff_iff.mpr (h k)

theorem isEmpty_iff : s.isEmpty = true ↔ ∀ k, k ∉ s := by
  constructor
  · intro h k
    have hmask : s.mask = 0 := by simpa [isEmpty] using h
    show ¬ s.mask.testBit k = true
    simp [hmask]
  · intro h
    have heq : s = empty := ext_mem fun k => iff_of_false (h k) not_mem_empty
    rw [heq]
    rfl

theorem mem_of_first? (h : s.first? = some k) : k ∈ s :=
  (mem_toList s k).mp (mem_of_head? h)

theorem first?_eq_none (h : s.first? = none) (k : Nat) : k ∉ s := by
  intro hk
  rw [first?, head?_eq_none_iff] at h
  have hmem := (mem_toList s k).mpr hk
  rw [h] at hmem
  exact absurd hmem not_mem_nil

theorem lt_of_mem_keysFrom {depth base mask k : Nat} (h : k ∈ keysFrom depth base mask) :
    base ≤ k ∧ k < base + 1 <<< depth := by
  induction depth generalizing base mask with
  | zero => grind [keysFrom, mem_singleton]
  | succ depth ih => grind [keysFrom, Nat.one_shiftLeft, Nat.pow_succ]

/-- The keys of the lower half come before those of the upper half. -/
theorem pairwise_keysFrom (depth base mask : Nat) :
    (keysFrom depth base mask).Pairwise (· < ·) := by
  induction depth generalizing base mask with
  | zero =>
    unfold keysFrom
    split <;> simp
  | succ depth ih =>
    unfold keysFrom
    split
    · exact .nil
    · refine pairwise_append.mpr ⟨ih _ _, ih _ _, fun j hj k hk => ?_⟩
      have hlow := lt_of_mem_keysFrom hj
      have hhigh := lt_of_mem_keysFrom hk
      omega

/-- The list is in strictly increasing order. -/
theorem pairwise_toList (s : KeySet) : s.toList.Pairwise (· < ·) := pairwise_keysFrom _ _ _

theorem nodup_toList (s : KeySet) : s.toList.Nodup := s.pairwise_toList.imp Nat.ne_of_lt

/-- The keys as a finite set. -/
def keys (s : KeySet) : Finset Nat := s.toList.toFinset

@[simp] theorem mem_keys {s : KeySet} {k : Nat} : k ∈ s.keys ↔ k ∈ s := by
  rw [keys, mem_toFinset, mem_toList, contains_iff_mem]

theorem card_keys (s : KeySet) : s.keys.card = s.size := toFinset_card_of_nodup s.nodup_toList

end KeySet

namespace BitSet

/-! ## What a visitor sees -/

variable {ι : Type} [DecidableEq ι]

/-- A change to one of several sets, each with storage of its own. -/
inductive Change (ι : Type)
  | insertAll (i : ι) (keys : List Int)
  | erase (i : ι) (k : Int)
  | reset (i : ι)
  | merge (i j : ι)
  | intersect (i j : ι)
  | subtract (i j : ι)
  | copy (i j : ι)

/-- The sets after a change. A key that no set can hold is not taken out of any. -/
def Change.run (f : ι → BitSet) : Change ι → ι → BitSet
  | .insertAll i keys => Function.update f i ((f i).insertAll keys).1
  | .erase i k => Function.update f i (((f i).erase k).toOption.getD (f i))
  | .reset i => Function.update f i (f i).reset
  | .merge i j => Function.update f i ((f i).merge (f j))
  | .intersect i j => Function.update f i ((f i).intersect (f j))
  | .subtract i j => Function.update f i ((f i).subtract (f j))
  | .copy i j => Function.update f i (f j)

end BitSet

end X64Backend
