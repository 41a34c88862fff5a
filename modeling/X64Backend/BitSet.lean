import X64Backend.Defect
import X64Backend.Wire

/-! # Sets of small keys

A key set is the number whose binary digits say which keys it holds. A bit set also
knows how many 64-bit words its storage has grown to, which shows only in its wire
form: a set that never held storage is written as nothing.
-/

namespace X64Backend

/-- A set of keys: bit `k` of the mask says whether `k` is in it. -/
structure KeySet where
  mask : Nat
  deriving DecidableEq, Inhabited

namespace KeySet

def empty : KeySet := ⟨0⟩

def contains (s : KeySet) (k : Nat) : Bool := s.mask.testBit k

instance : Membership Nat KeySet := ⟨fun s k => s.contains k = true⟩

def insert (s : KeySet) (k : Nat) : KeySet := ⟨s.mask ||| 1 <<< k⟩

def union (s t : KeySet) : KeySet := ⟨s.mask ||| t.mask⟩

def inter (s t : KeySet) : KeySet := ⟨s.mask &&& t.mask⟩

def diff (s t : KeySet) : KeySet := ⟨s.mask ^^^ (s.mask &&& t.mask)⟩

def erase (s : KeySet) (k : Nat) : KeySet := s.diff (empty.insert k)

def isEmpty (s : KeySet) : Bool := s.mask == 0

/-- The keys from `base` on that a mask of `2 ^ depth` bits stands for, by halves. -/
def keysFrom : (depth base mask : Nat) → List Nat
  | 0, base, mask => if mask.testBit 0 then [base] else []
  | depth + 1, base, mask =>
    if mask = 0 then []
    else
      let half := 1 <<< depth
      keysFrom depth base (mask % 1 <<< half) ++ keysFrom depth (base + half) (mask >>> half)

/-- The keys in increasing order. -/
def toList (s : KeySet) : List Nat := keysFrom (s.mask.log2.log2 + 1) 0 s.mask

def size (s : KeySet) : Nat := s.toList.length

def first? (s : KeySet) : Option Nat := s.toList.head?

def ofList (keys : List Nat) : KeySet := keys.foldl insert empty

@[simp] theorem contains_empty (k : Nat) : empty.contains k = false := by
  simp [contains, empty]

@[simp] theorem contains_insert (s : KeySet) (k j : Nat) :
    (s.insert k).contains j = (s.contains j || decide (j = k)) := by
  simp [contains, insert, Nat.one_shiftLeft, Nat.testBit_two_pow, eq_comm]

@[simp] theorem contains_union (s t : KeySet) (k : Nat) :
    (s.union t).contains k = (s.contains k || t.contains k) := by
  simp [contains, union]

@[simp] theorem contains_inter (s t : KeySet) (k : Nat) :
    (s.inter t).contains k = (s.contains k && t.contains k) := by
  simp [contains, inter]

@[simp] theorem contains_diff (s t : KeySet) (k : Nat) :
    (s.diff t).contains k = (s.contains k && !t.contains k) := by
  simp only [contains, diff, Nat.testBit_xor, Nat.testBit_and]
  cases s.mask.testBit k <;> cases t.mask.testBit k <;> rfl

@[simp] theorem contains_erase (s : KeySet) (k j : Nat) :
    (s.erase k).contains j = (s.contains j && decide (j ≠ k)) := by
  simp [erase]

/-- Two sets with the same keys are the same. -/
theorem ext_contains {s t : KeySet} (h : ∀ k, s.contains k = t.contains k) : s = t := by
  cases s
  cases t
  simpa [contains] using Nat.eq_of_testBit_eq h

theorem mem_keysFrom (depth base mask k : Nat) (h : mask < 1 <<< (1 <<< depth)) :
    k ∈ keysFrom depth base mask ↔ base ≤ k ∧ mask.testBit (k - base) = true := by
  induction depth generalizing base mask with
  | zero =>
    have hm : mask = 0 ∨ mask = 1 := by
      simp at h
      omega
    rcases hm with rfl | rfl
    · simp [keysFrom]
    · simp [keysFrom, Nat.testBit_one_eq_true_iff_self_eq_zero]
      omega
  | succ depth ih =>
    unfold keysFrom
    split
    next h0 => simp [h0]
    next =>
      have hlow : mask % 1 <<< (1 <<< depth) < 1 <<< (1 <<< depth) :=
        Nat.mod_lt _ (by rw [Nat.one_shiftLeft]; exact Nat.two_pow_pos _)
      have hhigh : mask >>> (1 <<< depth) < 1 <<< (1 <<< depth) := by
        rw [Nat.shiftRight_eq_div_pow, Nat.div_lt_iff_lt_mul (Nat.two_pow_pos _)]
        simpa [Nat.one_shiftLeft, ← Nat.pow_add, Nat.pow_succ, Nat.mul_two] using h
      simp only [List.mem_append, ih _ _ hlow, ih _ _ hhigh, Nat.testBit_shiftRight]
      generalize 1 <<< depth = half
      rw [Nat.one_shiftLeft, Nat.testBit_mod_two_pow]
      constructor
      · rintro (⟨hk, ht⟩ | ⟨hk, ht⟩)
        · simp at ht
          exact ⟨hk, ht.2⟩
        · refine ⟨by omega, ?_⟩
          rw [← ht]
          congr 1
          omega
      · rintro ⟨hk, ht⟩
        by_cases hlt : k - base < half
        · exact .inl ⟨hk, by simp [hlt, ht]⟩
        · refine .inr ⟨by omega, ?_⟩
          rw [← ht]
          congr 1
          omega

theorem lt_shiftLeft_depth (n : Nat) : n < 1 <<< (1 <<< (n.log2.log2 + 1)) := by
  rw [Nat.one_shiftLeft, Nat.one_shiftLeft]
  exact Nat.lt_of_lt_of_le Nat.lt_log2_self
    (Nat.pow_le_pow_right (by decide) Nat.lt_log2_self)

/-- The list holds the keys of the set. -/
@[simp] theorem mem_toList (s : KeySet) (k : Nat) : k ∈ s.toList ↔ s.contains k = true := by
  simp [toList, mem_keysFrom _ _ _ _ (lt_shiftLeft_depth s.mask), contains]

end KeySet

/-- A key set and the number of words its storage has grown to, if it ever grew. -/
structure BitSet where
  keys : KeySet
  words : Option Nat
  deriving DecidableEq, Inhabited

namespace BitSet

def empty : BitSet := ⟨.empty, none⟩

/-- A key that a set can hold. -/
def checkKey (k : Int) : Except Defect Nat :=
  match k with
  | .ofNat n => .ok n
  | .negSucc _ => .error (.negativeKey k)

/-- Storage of at least `n` words. -/
def grow (words : Option Nat) (n : Nat) : Option Nat :=
  if n = 0 then words else some (max (words.getD 0) n)

def insert (s : BitSet) (k : Nat) : BitSet := ⟨s.keys.insert k, grow s.words (k / 64 + 1)⟩

/-- Adds keys in order up to the first that a set cannot hold. -/
def insertAll (s : BitSet) : List Int → BitSet × Option Defect
  | [] => (s, none)
  | k :: rest =>
    match checkKey k with
    | .ok n => (s.insert n).insertAll rest
    | .error d => (s, some d)

/-- The set of some keys, all of which a set must be able to hold. -/
def ofKeys (keys : List Int) : Except Defect BitSet :=
  match empty.insertAll keys with
  | (s, none) => .ok s
  | (_, some d) => .error d

def contains (s : BitSet) (k : Int) : Except Defect Bool := do
  return s.keys.contains (← checkKey k)

def erase (s : BitSet) (k : Int) : Except Defect BitSet := do
  return { s with keys := s.keys.erase (← checkKey k) }

/-- The set without any keys. Storage that was there stays, with no words in use. -/
def reset (s : BitSet) : BitSet := ⟨.empty, s.words.map fun _ => 0⟩

def merge (s t : BitSet) : BitSet := ⟨s.keys.union t.keys, grow s.words (t.words.getD 0)⟩

def intersect (s t : BitSet) : BitSet := { s with keys := s.keys.inter t.keys }

def subtract (s t : BitSet) : BitSet := { s with keys := s.keys.diff t.keys }

/-- The smallest key, or minus one. -/
def first (s : BitSet) : Int :=
  match s.keys.first? with
  | some k => k
  | none => -1

/-- The keys of a list that a visitor sees behind others. It is asked after each key, with all that
it saw so far, whether it goes on. -/
def visitFrom (goes : List Nat → Bool) (seen : List Nat) : List Nat → List Nat
  | [] => seen
  | k :: rest =>
    let seen := seen ++ [k]
    if goes seen then visitFrom goes seen rest else seen

def visit (s : BitSet) (goes : List Nat → Bool) : List Nat := visitFrom goes [] s.keys.toList

/-- The keys that a visitor sees who stops after `n` of them, but not before the first. -/
def visited (s : BitSet) (n : Nat) : List Nat := s.visit fun seen => seen.length < n

def wire (s : BitSet) : Bytes :=
  match s.words with
  | none => Wire.null
  | some _ => Wire.openList (s.keys.toList.map Wire.number)

end BitSet

end X64Backend
