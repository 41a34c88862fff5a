import Mathlib.Algebra.Order.Ring.Nat
import Mathlib.Data.List.Forall2
import X64Backend.Tidy

/-! # Where labels stand

The label table of code says for each label the last position at which it stands.
Code that is put together from blocks has its labels where the blocks begin, so the
table of the whole follows from the tables of the parts.
-/

namespace X64Backend.Asm

open List

variable {l : Name} {code : List Instr} {k : Nat}

/-- The name that a label gives to its place. -/
def Instr.label? : Instr → Option Name
  | .label n => some n
  | _ => none

@[simp] theorem Instr.label?_eq_some {x : Instr} {n : Name} :
    x.label? = some n ↔ x = .label n := by
  cases x <;> simp [label?]

/-- The labels that stand in code, in order. -/
def labels (code : List Instr) : List Name := code.filterMap Instr.label?

/-- The labels that code jumps to, in order. -/
def targets (code : List Instr) : List Name := code.filterMap Tidy.target?

@[simp] theorem target?_eq_some {x : Instr} : Tidy.target? x = some l ↔ ∃ c, x = .jump c l := by
  cases x <;> simp [Tidy.target?]

@[simp] theorem labels_nil : labels [] = [] := rfl

@[simp] theorem labels_cons (x : Instr) (code : List Instr) :
    labels (x :: code) = x.label?.toList ++ labels code := by
  cases h : x.label? <;> simp [labels, h]

@[simp] theorem labels_append (a b : List Instr) : labels (a ++ b) = labels a ++ labels b :=
  filterMap_append

@[simp] theorem targets_nil : targets [] = [] := rfl

@[simp] theorem targets_cons (x : Instr) (code : List Instr) :
    targets (x :: code) = (Tidy.target? x).toList ++ targets code := by
  cases h : Tidy.target? x <;> simp [targets, h]

@[simp] theorem targets_append (a b : List Instr) : targets (a ++ b) = targets a ++ targets b :=
  filterMap_append

theorem mem_labels : l ∈ labels code ↔ .label l ∈ code := by
  simp [labels]

theorem mem_targets : l ∈ targets code ↔ ∃ c, .jump c l ∈ code := by
  simp only [targets, mem_filterMap, target?_eq_some]
  constructor
  · rintro ⟨x, hx, c, rfl⟩
    exact ⟨c, hx⟩
  · rintro ⟨c, hx⟩
    exact ⟨_, hx, c, rfl⟩

/-- The last position of a label in code. -/
def position? : List Instr → Name → Option Nat
  | [], _ => none
  | x :: rest, l =>
    match position? rest l with
    | some k => some (k + 1)
    | none => if x = .label l then some 0 else none

theorem LabelTable.getElem?_addFrom (i : Nat) (code : List Instr) (table : LabelTable)
    (l : Name) :
    (LabelTable.addFrom i code table)[l]? = ((position? code l).map (i + ·)).or table[l]? := by
  induction code generalizing i table with
  | nil => simp [LabelTable.addFrom, position?]
  | cons x rest ih =>
    rw [LabelTable.addFrom.eq_def]
    simp only [ih, position?]
    cases position? rest l with
    | some k => simp [Nat.add_assoc, Nat.add_comm 1]
    | none =>
      by_cases hx : x = .label l
      · subst hx
        simp
      · rw [if_neg hx]
        cases x with
        | label n =>
          have hne : n ≠ l := fun h => hx (by rw [h])
          simp [Std.TreeMap.getElem?_insert, hne]
        | _ => rfl

/-- The label table gives the last position of each label. -/
theorem labelTable_getElem? (code : List Instr) (l : Name) :
    (labelTable code)[l]? = position? code l := by
  simp [labelTable, LabelTable.getElem?_addFrom]

theorem position?_eq_none : position? code l = none ↔ l ∉ labels code := by
  induction code with
  | nil => simp [position?]
  | cons x rest ih =>
    simp only [position?, labels_cons, mem_append, Option.mem_toList,
      Instr.label?_eq_some, not_or]
    cases h : position? rest l with
    | some k =>
      simp only [h, reduceCtorEq, false_iff, not_not] at ih
      simp [ih]
    | none =>
      simp only [h, true_iff] at ih
      simp [ih]

theorem isSome_position? : (position? code l).isSome ↔ l ∈ labels code := by
  rw [Option.isSome_iff_ne_none, ne_eq, position?_eq_none, not_not]

theorem exists_position? (h : l ∈ labels code) : ∃ k, position? code l = some k :=
  Option.isSome_iff_exists.mp (isSome_position?.mpr h)

/-- A label stands at its position. -/
theorem getElem?_of_position? (h : position? code l = some k) : code[k]? = some (.label l) := by
  induction code generalizing k with
  | nil => simp [position?] at h
  | cons x rest ih =>
    simp only [position?] at h
    cases hr : position? rest l with
    | some j =>
      rw [hr] at h
      cases h
      simpa using ih hr
    | none =>
      simp only [hr] at h
      split at h
      next hx =>
        cases h
        simp [hx]
      next => cases h

theorem position?_lt (h : position? code l = some k) : k < code.length :=
  (List.getElem?_eq_some_iff.mp (getElem?_of_position? h)).1

/-- Of labels that stand once only, the place where one stands is its position. -/
theorem position?_eq_some_of_nodup (hnodup : (labels code).Nodup) (h : code[k]? = some (.label l)) :
    position? code l = some k := by
  induction code generalizing k with
  | nil => simp at h
  | cons x rest ih =>
    rw [labels_cons, nodup_append] at hnodup
    cases k with
    | zero =>
      obtain rfl : x = .label l := by simpa using h
      have hnot : position? rest l = none := by
        rw [position?_eq_none]
        intro hmem
        exact hnodup.2.2 l (by simp) l hmem rfl
      simp [position?, hnot]
    | succ k => simp [position?, ih hnodup.2.1 (by simpa using h)]

theorem position?_append (a b : List Instr) (l : Name) :
    position? (a ++ b) l = ((position? b l).map (a.length + ·)).or (position? a l) := by
  induction a with
  | nil => simp [position?]
  | cons x rest ih =>
    rw [cons_append, position?, ih]
    cases position? b l with
    | some k => simp [Nat.add_right_comm]
    | none => simp [position?]

end X64Backend.Asm
