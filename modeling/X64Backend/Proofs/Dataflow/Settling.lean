import X64Backend.Dataflow.Liveness
import X64Backend.Proofs.Dataflow.Reachable

/-! # The sweeps settle

Sweeps start from sets that are below what their own equations give, and every update
keeps them so. Hence the sets only grow, and there are no more registers to add than the
sweeps have fuel for: where they end, every set is what its equation gives.
-/

namespace X64Backend.Dataflow

open List

theorem unseen_le_size (bound : Nat) (s : KeySet) : unseen bound s ≤ bound :=
  Nat.le_trans countP_le_length (Nat.le_of_eq length_range)

theorem unseen_le {bound : Nat} {s t : KeySet}
    (hsub : ∀ k, s.contains k = true → t.contains k = true) : unseen bound t ≤ unseen bound s := by
  apply countP_mono_left
  intro k _ hk
  cases hs : s.contains k with
  | true => simp [hsub k hs] at hk
  | false => rfl

/-- A set that has another's keys and more has fewer keys left to see. -/
theorem unseen_lt {bound : Nat} {s t : KeySet}
    (hsub : ∀ k, s.contains k = true → t.contains k = true)
    (hbound : ∀ k, t.contains k = true → k < bound) (hne : s ≠ t) :
    unseen bound t < unseen bound s := by
  obtain ⟨k, hk⟩ : ∃ k, s.contains k ≠ t.contains k := by
    by_contra hall
    push Not at hall
    exact hne (KeySet.ext_contains hall)
  obtain ⟨hs, ht⟩ : s.contains k = false ∧ t.contains k = true := by
    grind
  have hins := unseen_insert (hbound k ht) hs
  have hle : unseen bound t ≤ unseen bound (s.insert k) := by
    apply unseen_le
    intro j hj
    rw [KeySet.contains_insert, Bool.or_eq_true, decide_eq_true_eq] at hj
    rcases hj with hj | rfl
    · exact hsub j hj
    · exact ht
  omega

/-- How many pairs of a position and a register below a bound are not live. -/
def vacant (bound : Nat) (before : List KeySet) : Nat := (before.map (unseen bound)).sum

theorem vacant_le {bound : Nat} {before after : List KeySet}
    (h : List.Forall₂ (fun s t => ∀ k, s.contains k = true → t.contains k = true) before after) :
    vacant bound after ≤ vacant bound before := by
  induction h with
  | nil => exact Nat.le_refl _
  | cons hsub _ ih =>
    simp only [vacant, map_cons, sum_cons] at ih ⊢
    exact Nat.add_le_add (unseen_le hsub) ih

theorem vacant_lt {bound : Nat} {before after : List KeySet}
    (h : List.Forall₂ (fun s t => ∀ k, s.contains k = true → t.contains k = true) before after)
    (hbound : ∀ s ∈ after, ∀ k, s.contains k = true → k < bound) (hne : before ≠ after) :
    vacant bound after < vacant bound before := by
  induction h with
  | nil => exact absurd rfl hne
  | @cons s t before after hsub hrest ih =>
    have hle : vacant bound after ≤ vacant bound before := vacant_le hrest
    simp only [vacant, map_cons, sum_cons] at ih hle ⊢
    by_cases hst : s = t
    · subst hst
      have hlt := ih (fun s hs => hbound s (mem_cons_of_mem _ hs))
        (fun heq => hne (by rw [heq]))
      omega
    · have hlt := unseen_lt hsub (hbound t mem_cons_self) hst
      omega

theorem vacant_replicate_le (bound n : Nat) :
    vacant bound (List.replicate n .empty) ≤ n * bound := by
  rw [vacant, map_replicate, sum_replicate_nat]
  exact Nat.mul_le_mul_left n (unseen_le_size bound _)

/-- Every set of the first array is within the one at its position in the second. -/
def Within (before after : Array KeySet) : Prop :=
  ∀ i k, (before.getD i .empty).contains k = true → (after.getD i .empty).contains k = true

theorem Within.refl (before : Array KeySet) : Within before before := fun _ _ hk => hk

theorem Within.trans {a b c : Array KeySet} (h : Within a b) (h' : Within b c) : Within a c :=
  fun i k hk => h' i k (h i k hk)

section

variable {points : Array Point} {p : Point} {before after : Array KeySet} {i k bound : Nat}

theorem contains_foldl_union (succs : List Nat) (live : KeySet) :
    (succs.foldl (fun live s => live.union (before.getD s .empty)) live).contains k = true ↔
      live.contains k = true ∨ ∃ s ∈ succs, (before.getD s .empty).contains k = true := by
  induction succs generalizing live with
  | nil => simp
  | cons s succs ih =>
    rw [foldl_cons, ih]
    simp [or_assoc]

theorem contains_liveBehind : (p.liveBehind before).contains k = true ↔
    ∃ s ∈ p.succs, (before.getD s .empty).contains k = true := by
  rw [Point.liveBehind, contains_foldl_union, KeySet.contains_empty]
  simp only [Bool.false_eq_true, false_or]

theorem contains_liveBefore : (p.liveBefore before).contains k = true ↔
    (p.liveBehind before).contains k = true ∧ p.defs.contains k = false ∨
      p.uses.contains k = true := by
  simp [Point.liveBefore]

theorem liveBefore_mono (h : Within before after)
    (hk : (p.liveBefore before).contains k = true) : (p.liveBefore after).contains k = true := by
  rw [contains_liveBefore, contains_liveBehind] at hk ⊢
  rcases hk with ⟨⟨s, hs, hk⟩, hdefs⟩ | hk
  · exact .inl ⟨⟨s, hs, h s k hk⟩, hdefs⟩
  · exact .inr hk

theorem getD_setIfInBounds {α : Type} {xs : Array α} {d : α} (x : α) (j : Nat)
    (hi : i < xs.size) : (xs.setIfInBounds i x).getD j d = if i = j then x else xs.getD j d := by
  rw [Array.getD_eq_getD_getElem?, Array.getElem?_setIfInBounds, Array.getD_eq_getD_getElem?]
  by_cases hij : i = j
  · simp [hij, hij ▸ hi]
  · simp [hij]

/-- Sets of registers below a bound, each within what its equation gives. -/
structure Rising (points : Array Point) (bound : Nat) (before : Array KeySet) : Prop where
  size : before.size = points.size
  below {i k : Nat} (hk : (before.getD i .empty).contains k = true) : k < bound
  rises {i k : Nat} {p : Point} (hp : points[i]? = some p)
    (hk : (before.getD i .empty).contains k = true) : (p.liveBefore before).contains k = true

variable (hpoints : ∀ p ∈ points, ∀ k, p.uses.contains k = true → k < bound)

include hpoints

theorem liveBefore_lt (h : Rising points bound before) (hp : p ∈ points)
    (hk : (p.liveBefore before).contains k = true) : k < bound := by
  grind [contains_liveBefore, contains_liveBehind, h.below]

/-- One update of a sweep. -/
theorem Rising.update (h : Rising points bound before) (hp : points[i]? = some p) :
    Within before (before.setIfInBounds i (p.liveBefore before)) ∧
      Rising points bound (before.setIfInBounds i (p.liveBefore before)) := by
  obtain ⟨hlt, hget⟩ := Array.getElem?_eq_some_iff.mp hp
  have hi : i < before.size := h.size ▸ hlt
  have hmem : p ∈ points := hget ▸ Array.getElem_mem hlt
  have hgrows : Within before (before.setIfInBounds i (p.liveBefore before)) := by
    intro j k hk
    rw [getD_setIfInBounds _ _ hi]
    split
    next hij => exact h.rises hp (hij ▸ hk)
    next => exact hk
  refine ⟨hgrows, by rw [Array.size_setIfInBounds, h.size], ?_, ?_⟩
  · intro j k hk
    rw [getD_setIfInBounds _ _ hi] at hk
    split at hk
    · exact liveBefore_lt hpoints h hmem hk
    · exact h.below hk
  · intro j k q hq hk
    apply liveBefore_mono hgrows
    rw [getD_setIfInBounds _ _ hi] at hk
    split at hk
    next hij =>
      subst hij
      cases hp.symm.trans hq
      exact hk
    next => exact h.rises hq hk

omit hpoints

/-- The part of a sweep that is done from a position to the last. -/
def sweepFrom (rest : List Point) (i : Nat) (before : Array KeySet) : Array KeySet :=
  (rest.zipIdx i).foldr (fun (p, i) before => before.setIfInBounds i (p.liveBefore before)) before

theorem sweepFrom_cons (rest : List Point) :
    sweepFrom (p :: rest) i before = (sweepFrom rest (i + 1) before).setIfInBounds i
      (p.liveBefore (sweepFrom rest (i + 1) before)) := rfl

/-- What one update keeps is kept by a sweep. -/
theorem sweep_keeps {M : Array KeySet → Prop} (h : M before)
    (hupdate : ∀ {i p before}, points[i]? = some p → M before →
      M (before.setIfInBounds i (p.liveBefore before))) : M (sweep points before) := by
  refine List.foldrRecOn _ _ h fun before hbefore q hq => hupdate ?_ hbefore
  rw [← Array.getElem?_toList]
  exact mem_zipIdx_iff_getElem?.mp hq

include hpoints in
/-- A sweep keeps the sets below their equations, and none loses a register. -/
theorem sweep_rising (h : Rising points bound before) :
    Within before (sweep points before) ∧ Rising points bound (sweep points before) := by
  refine sweep_keeps (M := fun b => Within before b ∧ Rising points bound b)
    ⟨Within.refl before, h⟩ fun hp hb => ?_
  obtain ⟨hgrows, hrising⟩ := hb.2.update hpoints hp
  exact ⟨hb.1.trans hgrows, hrising⟩

theorem getD_sweepFrom_of_lt (rest : List Point) {i j : Nat} (hj : j < i) :
    (sweepFrom rest i before).getD j .empty = before.getD j .empty := by
  induction rest generalizing i with
  | nil => rfl
  | cons p rest ih =>
    have hne : i ≠ j := by omega
    rw [sweepFrom_cons, Array.getD_eq_getD_getElem?, Array.getElem?_setIfInBounds_ne hne,
      ← Array.getD_eq_getD_getElem?, ih (by omega)]

theorem size_sweepFrom (rest : List Point) (i : Nat) :
    (sweepFrom rest i before).size = before.size := by
  induction rest generalizing i with
  | nil => rfl
  | cons p rest ih => rw [sweepFrom_cons, Array.size_setIfInBounds, ih]

theorem eq_of_getD (hsize : before.size = after.size)
    (h : ∀ i, before.getD i .empty = after.getD i .empty) : before = after := by
  apply Array.ext hsize
  intro i hi hi'
  have := h i
  rwa [Array.getD, dif_pos hi, Array.getD, dif_pos hi'] at this

/-- Where a sweep changes nothing, every set it goes over is what its equation gives. -/
theorem eq_liveBefore_of_sweepFrom {rest : List Point}
    (hlen : i + rest.length ≤ before.size) (hfix : sweepFrom rest i before = before) {j : Nat}
    (hp : rest[j]? = some p) : before.getD (i + j) .empty = p.liveBefore before := by
  induction rest generalizing i j with
  | nil => cases hp
  | cons q rest ih =>
    rw [length_cons] at hlen
    have hi : i < (sweepFrom rest (i + 1) before).size := by rw [size_sweepFrom]; omega
    rw [sweepFrom_cons] at hfix
    -- The rest of the sweep leaves position `i` alone, so it changed nothing either.
    have hrest : sweepFrom rest (i + 1) before = before := by
      apply eq_of_getD (size_sweepFrom rest (i + 1))
      intro l
      by_cases hl : i = l
      · rw [← hl, getD_sweepFrom_of_lt rest (Nat.lt_succ_self i)]
      · have hget := congrArg (fun sets : Array KeySet => sets.getD l .empty) hfix
        rwa [getD_setIfInBounds _ _ hi, if_neg hl] at hget
    cases j with
    | succ j =>
      have := ih (by omega) hrest (j := j) (by simpa using hp)
      rwa [Nat.add_right_comm] at this
    | zero =>
      cases hp
      have hget := congrArg (fun sets : Array KeySet => sets.getD i .empty) hfix
      rw [getD_setIfInBounds _ _ hi, if_pos rfl, hrest] at hget
      exact hget.symm

/-- Where the sets grow fewer pairs are vacant. -/
theorem Within.vacant_lt (h : Within before after) (hbefore : before.size = points.size)
    (hafter : Rising points bound after) (hne : after ≠ before) :
    vacant bound after.toList < vacant bound before.toList := by
  apply Dataflow.vacant_lt
  · rw [forall₂_iff_get]
    refine ⟨by simp [hbefore, hafter.size], ?_⟩
    intro i hi hi' k hk
    have := h i k
    rw [Array.getD, Array.getD, dif_pos (by simpa using hi), dif_pos (by simpa using hi')] at this
    exact this hk
  · intro s hs k hk
    obtain ⟨i, hi, rfl⟩ := getElem_of_mem hs
    apply hafter.below (i := i)
    rw [Array.getD, dif_pos (by simpa using hi)]
    exact hk
  · intro heq
    exact hne (Array.toList_inj.mp heq).symm

include hpoints

/-- A sweep that changes something leaves fewer pairs vacant. -/
theorem vacant_sweep_lt (h : Rising points bound before) (hne : sweep points before ≠ before) :
    vacant bound (sweep points before).toList < vacant bound before.toList := by
  obtain ⟨hgrows, hrising⟩ := sweep_rising hpoints h
  exact hgrows.vacant_lt h.size hrising hne

theorem settle_rising
    {fuel : Nat} (h : Rising points bound before) (hfuel : vacant bound before.toList < fuel) :
    Rising points bound (settle points fuel before) ∧
      sweep points (settle points fuel before) = settle points fuel before := by
  induction fuel generalizing before with
  | zero => omega
  | succ fuel ih =>
    rw [settle]
    split
    next hfix => exact ⟨h, hfix⟩
    next hne =>
      have hlt := vacant_sweep_lt hpoints h hne
      exact ih (sweep_rising hpoints h).2 (by omega)

omit hpoints

theorem rising_replicate (points : Array Point) (bound : Nat) :
    Rising points bound (Array.replicate points.size .empty) := by
  have hempty (i : Nat) : (Array.replicate points.size KeySet.empty).getD i .empty = .empty := by
    simp [Array.getD_eq_getD_getElem?, Array.getElem?_replicate]
    split <;> rfl
  refine ⟨Array.size_replicate, ?_, ?_⟩
  · intro i k hk
    simp [hempty] at hk
  · intro i k p _ hk
    simp [hempty] at hk

include hpoints in
/-- The sets found are of registers below the bound, and each is what its equation gives. -/
theorem settle_spec (hsettle : settle points (points.size * bound + 1)
      (Array.replicate points.size .empty) = before) :
    before.size = points.size ∧
    (∀ i k, (before.getD i .empty).contains k = true → k < bound) ∧
    ∀ i p, points[i]? = some p → before.getD i .empty = p.liveBefore before := by
  have hfuel : vacant bound (Array.replicate points.size KeySet.empty).toList <
      points.size * bound + 1 := by
    rw [Array.toList_replicate]
    exact Nat.lt_succ_of_le (vacant_replicate_le bound points.size)
  obtain ⟨hrising, hfix⟩ := settle_rising hpoints (rising_replicate points bound) hfuel
  rw [hsettle] at hrising hfix
  refine ⟨hrising.size, fun i k hk => hrising.below hk, ?_⟩
  intro i p hp
  have hlen : 0 + points.toList.length ≤ before.size := by simp [hrising.size]
  simpa using eq_liveBefore_of_sweepFrom hlen hfix (j := i) (by simpa using hp)

end

end X64Backend.Dataflow
