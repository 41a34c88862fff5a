import Mathlib.Data.List.Perm.Subperm
import Mathlib.Logic.Relation
import X64Backend.Proofs.Dataflow.Exactness

/-! # Work in any order

Liveness can be computed position by position. All positions wait at first; one after another
is taken, in whatever order, and where the set before an instruction changes its predecessors
wait again. Every such order comes to an end, and always with the sets that the sweeps find.
-/

namespace X64Backend.Dataflow

open Asm List

/-! ## Predecessors -/

theorem size_addPredecessor (preds : Array (List Nat)) (i : Nat) (succs : List Nat) :
    (addPredecessor preds i succs).size = preds.size := by
  unfold addPredecessor
  induction succs generalizing preds with
  | nil => rfl
  | cons s succs ih => rw [foldl_cons, ih, Array.size_modify]

theorem mem_addPredecessor {preds : Array (List Nat)} {i j k : Nat} {succs : List Nat} :
    j ∈ (addPredecessor preds i succs).getD k [] ↔
      j ∈ preds.getD k [] ∨ k < preds.size ∧ k ∈ succs ∧ j = i := by
  unfold addPredecessor
  induction succs generalizing preds with
  | nil => simp
  | cons s succs ih =>
    rw [foldl_cons, ih, Array.size_modify]
    have hmodify : j ∈ (preds.modify s (· ++ [i])).getD k [] ↔
        j ∈ preds.getD k [] ∨ k < preds.size ∧ k = s ∧ j = i := by
      by_cases hk : k < preds.size
      · by_cases hs : s = k
        · simp [Array.getD, hk, hs, Array.getElem_modify]
        · have hs' : ¬ k = s := fun h => hs h.symm
          simp [Array.getD, hk, hs, hs', Array.getElem_modify]
      · simp [Array.getD, hk]
    rw [hmodify, mem_cons]
    grind

theorem mem_foldl_addPredecessor {pairs : List (List Nat × Nat)} {preds : Array (List Nat)}
    {j k : Nat} :
    j ∈ (pairs.foldl (fun preds (succs, i) => addPredecessor preds i succs) preds).getD k [] ↔
      j ∈ preds.getD k [] ∨ k < preds.size ∧ ∃ succs, (succs, j) ∈ pairs ∧ k ∈ succs := by
  induction pairs generalizing preds with
  | nil => simp
  | cons pair pairs ih =>
    rw [foldl_cons, ih, mem_addPredecessor, size_addPredecessor]
    obtain ⟨succs, i⟩ := pair
    simp only [mem_cons, Prod.mk.injEq]
    grind

/-- A position's predecessors are those that it is a successor of. -/
theorem mem_predecessors {succs : Array (List Nat)} {j k : Nat} (hk : k < succs.size) :
    j ∈ (predecessors succs).getD k [] ↔ k ∈ succs.getD j [] := by
  have hblank : (Array.replicate succs.size ([] : List Nat)).getD k [] = [] := by
    simp [Array.getD, hk]
  rw [predecessors, mem_foldl_addPredecessor, hblank]
  simp only [not_mem_nil, false_or, Array.size_replicate, hk, true_and,
    mem_zipIdx_iff_getElem?, Array.getElem?_toList, Array.getD_eq_getD_getElem?]
  constructor
  · rintro ⟨ss, hss, hmem⟩
    rwa [hss]
  · grind

/-! ## Positions that wait -/

/-- Liveness in the making: the sets found so far, and the positions that wait, each once. -/
structure Jobs where
  before : Array KeySet
  behind : Array KeySet
  waiting : List Nat
  queued : KeySet

namespace Jobs

/-- All positions wait. -/
def start (size : Nat) : Jobs where
  before := Array.replicate size .empty
  behind := Array.replicate size .empty
  waiting := List.range size
  queued := .ofList (List.range size)

/-- The sets at a position are computed anew. Where the set before the instruction changes,
those predecessors that do not wait are put back. -/
def take (points : Array Point) (jobs : Jobs) (i : Nat) (p : Point) : Jobs :=
  let found := p.liveBefore jobs.before
  let rest := (jobs.waiting.erase i, jobs.queued.erase i)
  let wait := if found = jobs.before.getD i .empty then rest
    else visit rest ((predecessors (points.map Point.succs)).getD i [])
  { before := jobs.before.setIfInBounds i found
    behind := jobs.behind.setIfInBounds i (p.liveBehind jobs.before)
    waiting := wait.1
    queued := wait.2 }

/-- Some position that waits is taken. -/
inductive Takes (points : Array Point) (jobs : Jobs) : Jobs → Prop
  | intro (i : Nat) (p : Point) (hi : i ∈ jobs.waiting) (hp : points[i]? = some p) :
      Takes points jobs (jobs.take points i p)

/-- What holds whatever was taken: the sets are within those of every solution, and where no
position waits the equations are satisfied. -/
structure Going (points : Array Point) (bound : Nat) (jobs : Jobs) : Prop where
  rising : Rising points bound jobs.before
  bounded {P : Nat → Nat → Prop} (hP : Closed points P) : Bounded P jobs.before
  size : jobs.behind.size = points.size
  nodup : jobs.waiting.Nodup
  queued (i : Nat) : jobs.queued.contains i = true ↔ i ∈ jobs.waiting
  lt {i : Nat} (h : i ∈ jobs.waiting) : i < points.size
  settled {i : Nat} {p : Point} (h : i ∉ jobs.waiting) (hp : points[i]? = some p) :
    jobs.before.getD i .empty = p.liveBefore jobs.before ∧
      jobs.behind.getD i .empty = p.liveBehind jobs.before

end Jobs

theorem nodup_visit {stack succs : List Nat} {seen : KeySet}
    (hseen : ∀ i ∈ stack, seen.contains i = true) (h : stack.Nodup) :
    (visit (stack, seen) succs).1.Nodup := by
  induction succs generalizing stack seen with
  | nil => exact h
  | cons s succs ih =>
    rw [visit_cons]
    split
    next => exact ih hseen h
    next hs =>
      grind [nodup_cons, KeySet.contains_insert]

section

variable {points : Array Point} {bound : Nat} {jobs jobs' : Jobs}

/-- Sets that no point looks at may change without changing what is live behind it. -/
theorem liveBehind_setIfInBounds {before : Array KeySet} {i : Nat} {p : Point} (live : KeySet)
    (h : i ∉ p.succs) : p.liveBehind (before.setIfInBounds i live) = p.liveBehind before := by
  apply KeySet.ext_contains
  intro k
  rw [Bool.eq_iff_iff, contains_liveBehind, contains_liveBehind]
  refine exists_congr fun s => and_congr_right fun hs => ?_
  have hne : i ≠ s := fun heq => h (heq ▸ hs)
  rw [Array.getD_eq_getD_getElem?, Array.getElem?_setIfInBounds_ne hne,
    ← Array.getD_eq_getD_getElem?]

theorem liveBefore_setIfInBounds {before : Array KeySet} {i : Nat} {p : Point} (live : KeySet)
    (h : i ∉ p.succs) : p.liveBefore (before.setIfInBounds i live) = p.liveBefore before := by
  rw [Point.liveBefore, liveBehind_setIfInBounds live h, Point.liveBefore]

theorem getD_succs {j : Nat} {p : Point} (hp : points[j]? = some p) :
    (points.map Point.succs).getD j [] = p.succs := by
  simp [Array.getD_eq_getD_getElem?, hp]

theorem lt_of_mem_succs {i j : Nat} (h : i ∈ (points.map Point.succs).getD j []) :
    j < points.size := by
  by_contra hge
  rw [Array.getD, dif_neg (by simpa using hge)] at h
  cases h

namespace Jobs

theorem going_start (points : Array Point) (bound : Nat) :
    (start points.size).Going points bound where
  rising := rising_replicate points bound
  bounded _ := bounded_empty _ points.size
  size := Array.size_replicate
  nodup := nodup_range
  queued i := contains_ofList (List.range points.size) i
  lt h := mem_range.mp h
  settled h hp := absurd (mem_range.mpr (Array.getElem?_eq_some_iff.mp hp).1) h

/-- The sets stay as they are when one was what its equation gives. -/
theorem before_take {i : Nat} {p : Point} (hi : i < jobs.before.size)
    (heq : p.liveBefore jobs.before = jobs.before.getD i .empty) :
    (jobs.take points i p).before = jobs.before := by
  apply eq_of_getD (Array.size_setIfInBounds ..)
  intro l
  refine (getD_setIfInBounds _ l hi).trans ?_
  split
  next hil => rw [heq, hil]
  next => rfl

variable (h : jobs.Going points bound)

include h in
/-- The positions that wait when one was taken. -/
theorem Going.mem_take {i : Nat} {p : Point}
    (hp : points[i]? = some p) : (jobs.take points i p).waiting.Nodup ∧
      (∀ j, (jobs.take points i p).queued.contains j = true ↔
        j ∈ (jobs.take points i p).waiting) ∧
      ∀ j, j ∈ (jobs.take points i p).waiting ↔ j ≠ i ∧ j ∈ jobs.waiting ∨
        p.liveBefore jobs.before ≠ jobs.before.getD i .empty ∧
          i ∈ (points.map Point.succs).getD j [] := by
  have hi : i < (points.map Point.succs).size := by
    simpa using (Array.getElem?_eq_some_iff.mp hp).1
  have hrest : ∀ j, (jobs.queued.erase i).contains j = true ↔ j ∈ jobs.waiting.erase i := by
    grind [h.nodup.mem_erase_iff, KeySet.contains_erase, h.queued]
  have hnodup : (jobs.waiting.erase i).Nodup := h.nodup.erase i
  unfold take
  dsimp only
  split
  next heq =>
    refine ⟨hnodup, hrest, fun j => ?_⟩
    simp [heq, h.nodup.mem_erase_iff]
  next hne =>
    obtain ⟨hseen, hstack, _⟩ := @visit_spec points.size
      ((predecessors (points.map Point.succs)).getD i []) (jobs.waiting.erase i)
      (jobs.queued.erase i) (fun j hj => lt_of_mem_succs ((mem_predecessors hi).mp hj))
    refine ⟨nodup_visit (fun j hj => (hrest j).mpr hj) hnodup, fun j => ?_, fun j => ?_⟩
    · grind
    · rw [hstack, mem_predecessors hi, h.nodup.mem_erase_iff]
      by_cases hj : j ≠ i ∧ j ∈ jobs.waiting
      · simp [hj]
      · grind [h.nodup.mem_erase_iff, not_false_eq_true]

variable (hpoints : ∀ p ∈ points, ∀ k, p.uses.contains k = true → k < bound)

include h

include hpoints in
/-- Taking a position keeps what holds. -/
theorem Going.takes (htakes : Takes points jobs jobs') :
    jobs'.Going points bound := by
  obtain ⟨i, p, hi, hp⟩ := htakes
  obtain ⟨hnodup, hqueued, hwaiting⟩ := h.mem_take hp
  have hlt : i < jobs.before.size := h.rising.size ▸ h.lt hi
  refine ⟨(h.rising.update hpoints hp).2, fun hP => (h.bounded hP).update hP hp, ?_, hnodup,
    hqueued, ?_, ?_⟩
  · exact (Array.size_setIfInBounds ..).trans h.size
  · grind [h.lt, lt_of_mem_succs]
  · intro j q hj hq
    rw [hwaiting, not_or] at hj
    obtain ⟨hold, hchanged⟩ := hj
    have hbehind : (jobs.take points i p).behind.getD j .empty =
        if i = j then p.liveBehind jobs.before else jobs.behind.getD j .empty :=
      getD_setIfInBounds _ j (h.size ▸ h.lt hi)
    have hbefore : (jobs.take points i p).before.getD j .empty =
        if i = j then p.liveBefore jobs.before else jobs.before.getD j .empty :=
      getD_setIfInBounds _ j hlt
    -- What the position at `j` looks at did not change, or else it would wait.
    have hsame : q.liveBehind (jobs.take points i p).before = q.liveBehind jobs.before ∧
        q.liveBefore (jobs.take points i p).before = q.liveBefore jobs.before := by
      by_cases heq : p.liveBefore jobs.before = jobs.before.getD i .empty
      · rw [before_take hlt heq]
        exact ⟨rfl, rfl⟩
      · have hnot : i ∉ q.succs := fun hmem => hchanged ⟨heq, (getD_succs hq).symm ▸ hmem⟩
        exact ⟨liveBehind_setIfInBounds _ hnot, liveBefore_setIfInBounds _ hnot⟩
    rw [hbefore, hbehind, hsame.1, hsame.2]
    split
    next hij =>
      subst hij
      obtain rfl := Option.some.inj (hp.symm.trans hq)
      exact ⟨rfl, rfl⟩
    next hij => exact h.settled (fun hmem => hold ⟨fun heq => hij heq.symm, hmem⟩) hq

theorem Going.length_waiting_le :
    jobs.waiting.length ≤ points.size := by
  have hsub : jobs.waiting ⊆ List.range points.size := fun i hi => mem_range.mpr (h.lt hi)
  have hle := (h.nodup.subperm hsub).length_le
  rwa [length_range] at hle

omit h

/-- Work left to do: registers that are not live yet where they could be, and for each of these
as many positions as can wait; and the positions that do. -/
def load (points : Array Point) (bound : Nat) (jobs : Jobs) : Nat :=
  vacant bound jobs.before.toList * (points.size + 1) + jobs.waiting.length

include hpoints

include h

/-- Once a position is taken there is less to do. -/
theorem Going.load_lt (htakes : Takes points jobs jobs') :
    jobs'.load points bound < jobs.load points bound := by
  have hle := (h.takes hpoints htakes).length_waiting_le
  obtain ⟨i, p, hi, hp⟩ := htakes
  have hlt : i < jobs.before.size := h.rising.size ▸ h.lt hi
  by_cases heq : p.liveBefore jobs.before = jobs.before.getD i .empty
  · -- The sets stay as they are, and one position less waits.
    have hwaiting : (jobs.take points i p).waiting = jobs.waiting.erase i := by
      simp only [take, heq, if_true]
    have hlength := length_erase_of_mem hi
    have hpos := length_pos_of_mem hi
    rw [load, load, before_take hlt heq, hwaiting]
    omega
  · -- A register becomes live at the position.
    have hvacant : vacant bound (jobs.take points i p).before.toList <
        vacant bound jobs.before.toList := by
      obtain ⟨hgrows, hrising⟩ := h.rising.update hpoints hp
      refine hgrows.vacant_lt h.rising.size hrising fun hsame => heq ?_
      have hget := getD_setIfInBounds (d := .empty) (p.liveBefore jobs.before) i hlt
      rw [hsame, if_pos rfl] at hget
      exact hget.symm
    have hmul := Nat.mul_le_mul_right (points.size + 1) hvacant
    rw [Nat.succ_mul] at hmul
    rw [load, load]
    omega

theorem Going.acc
    : Acc (fun jobs' jobs => Takes points jobs jobs') jobs := by
  induction hload : jobs.load points bound using Nat.strongRecOn generalizing jobs with
  | ind n ih =>
    refine ⟨jobs, fun jobs' htakes => ?_⟩
    have hlt := h.load_lt hpoints htakes
    exact ih _ (hload ▸ hlt) (h.takes hpoints htakes) rfl

theorem Going.run
    (hrun : Relation.ReflTransGen (Takes points) jobs jobs') :
    jobs'.Going points bound := by
  induction hrun with
  | refl => exact h
  | tail _ htakes ih => exact ih.takes hpoints htakes

omit h

omit hpoints

include h in
/-- Where nothing waits, the sets are a solution. -/
theorem Going.closed (hdone : jobs.waiting = []) :
    Closed points fun i k => (jobs.before.getD i .empty).contains k = true := by
  intro i k p hp hk
  rw [(h.settled (by simp [hdone]) hp).1, contains_liveBefore, contains_liveBehind]
  exact hk.symm

end Jobs

theorem closed_of_solution {sets : Array KeySet}
    (h : ∀ i p, points[i]? = some p → sets.getD i .empty = p.liveBefore sets) :
    Closed points fun i k => (sets.getD i .empty).contains k = true := by
  intro i k p hp hk
  rw [h i p hp, contains_liveBefore, contains_liveBehind]
  exact hk.symm

end

/-! ## The result of the analysis -/

theorem exists_allAccesses {returns : Bool} {code : List Instr} (h : .absent ∉ code) :
    ∃ accesses, allAccesses returns code = .ok accesses := by
  have hone : ∀ x, x ≠ .absent → ∃ a, accesses returns x = .ok a := by
    intro x hx
    cases x with
    | absent => exact absurd rfl hx
    | _ => exact ⟨_, rfl⟩
  induction code with
  | nil => exact ⟨_, rfl⟩
  | cons x rest ih =>
    rw [mem_cons, not_or] at h
    obtain ⟨a, ha⟩ := hone x (Ne.symm h.1)
    obtain ⟨as, has⟩ := ih h.2
    cases rest with
    | nil => exact ⟨_, by rw [allAccesses, ha]; rfl⟩
    | cons y rest =>
      refine ⟨a :: as, ?_⟩
      rw [allAccesses, ha, has]
      · rfl
      · exact fun h => nomatch h

/-- Code without empty places that jumps to labels of its own has a liveness. -/
theorem exists_analyze {code : List Instr} (returns : Bool) (hpresent : .absent ∉ code)
    (hdefined : ∀ l ∈ targets code, l ∈ labels code) : ∃ live, analyze code returns = .ok live := by
  obtain ⟨accesses, haccesses⟩ : ∃ accesses, allAccesses returns code = .ok accesses :=
    exists_allAccesses hpresent
  obtain ⟨succs, hsuccs⟩ := exists_successors hdefined
  exact ⟨_, bind_eq_ok.mpr ⟨accesses, haccesses, bind_eq_ok.mpr ⟨succs, hsuccs, rfl⟩⟩⟩

namespace Liveness

/-- The liveness of code is exact: what is live behind an instruction is what paths from there
carry, the sets are the least solution of their equations, and they are what work in any order
comes to. -/
structure Exact (live : Liveness) (code : List Instr) (returns : Bool) : Prop where
  before_size : live.before.size = code.length
  behind_size : live.behind.size = code.length
  behind {i : Nat} (hi : i < code.length) (r : Reg) : live.LiveBehind i r ↔
    ∃ j path, Follows code i j ∧ Carries code returns r (j :: path)
  point {i : Nat} (hi : i < code.length) : ∃ p, live.points[i]? = some p ∧
    live.before.getD i .empty = ((live.behind.getD i .empty).diff p.defs).union p.uses ∧
    ∀ r k, live.vars.id? r = some k → (p.uses.contains k = true ↔ Reads code returns i r) ∧
      (p.defs.contains k = true ↔ Writes code i r)
  least {sets : Array KeySet}
    (h : ∀ i p, live.points[i]? = some p → sets.getD i .empty = p.liveBefore sets) :
    Within live.before sets
  ends : Acc (fun jobs' jobs => Jobs.Takes live.points jobs jobs') (Jobs.start code.length)
  ongoing {jobs : Jobs} {i : Nat}
    (h : Relation.ReflTransGen (Jobs.Takes live.points) (Jobs.start code.length) jobs)
    (hi : i ∈ jobs.waiting) : ∃ p, Jobs.Takes live.points jobs (jobs.take live.points i p)
  anyOrder {jobs : Jobs}
    (h : Relation.ReflTransGen (Jobs.Takes live.points) (Jobs.start code.length) jobs)
    (hdone : jobs.waiting = []) : jobs.before = live.before ∧ jobs.behind = live.behind

theorem Solves.getD_behind {live : Liveness} {code : List Instr} {returns : Bool} {i : Nat}
    {p : Point} (h : live.Solves code returns) (hp : live.points[i]? = some p) :
    live.before.getD i .empty = p.liveBefore live.before ∧
      live.behind.getD i .empty = p.liveBehind live.before := by
  have hi : i < code.length := h.size ▸ (Array.getElem?_eq_some_iff.mp hp).1
  obtain ⟨q, hq, hdescribes⟩ := h.point (getElem?_eq_getElem hi)
  obtain rfl := Option.some.inj (hp.symm.trans hq)
  refine ⟨hdescribes.before, ?_⟩
  rw [Array.getD_eq_getD_getElem?, hdescribes.behind]
  rfl

end Liveness

/-- The analysis of code without empty places that jumps to labels of its own ends, and its
result is exact. -/
theorem analyze_exact {code : List Instr} (returns : Bool) (hpresent : .absent ∉ code)
    (hdefined : ∀ l ∈ targets code, l ∈ labels code) :
    ∃ live, analyze code returns = .ok live ∧ live.Exact code returns := by
  obtain ⟨live, hlive⟩ := exists_analyze returns hpresent hdefined
  have hsolves := analyze_solves hlive
  have hpoints : ∀ p ∈ live.points, ∀ k, p.uses.contains k = true → k < live.vars.size := by
    intro p hp k hk
    obtain ⟨i, hi⟩ := Array.mem_iff_getElem?.mp hp
    refine hsolves.below (i := i) ?_
    rw [(hsolves.getD_behind hi).1, contains_liveBefore]
    exact .inr hk
  have hstart := Jobs.going_start live.points live.vars.size
  have hsize := hsolves.size
  have hbefore := hsolves.width
  rw [hsize] at hstart
  refine ⟨live, hlive, hbefore, hsolves.length, ?_, ?_, ?_, hstart.acc hpoints, ?_, ?_⟩
  · grind [hsolves.liveBehind_iff, liveBefore_iff_carries]
  · intro i hi
    have hx := List.getElem?_eq_getElem hi
    obtain ⟨p, hp, hdescribes⟩ := hsolves.point hx
    obtain ⟨heq, hbehind⟩ := hsolves.getD_behind hp
    refine ⟨p, hp, ?_, fun r k hk => ⟨?_, ?_⟩⟩
    · rw [hbehind, heq, Point.liveBefore]
    · exact hsolves.reads_iff hx hdescribes hk
    · exact hsolves.writes_iff hx hdescribes hk
  · exact fun hsets => analyze_bounded hlive (closed_of_solution hsets)
  · intro jobs i hrun hi
    have hlt := (hstart.run hpoints hrun).lt hi
    exact ⟨_, .intro i _ hi (Array.getElem?_eq_getElem hlt)⟩
  · intro jobs hrun hdone
    have hgoing := hstart.run hpoints hrun
    have hsame : jobs.before = live.before := by
      apply eq_of_getD (by rw [hgoing.rising.size, hsize, hbefore])
      intro i
      apply KeySet.ext_contains
      intro k
      rw [Bool.eq_iff_iff]
      constructor
      · exact hgoing.bounded (closed_of_solution fun i p hp => (hsolves.getD_behind hp).1) i k
      · exact analyze_bounded hlive (hgoing.closed hdone) i k
    refine ⟨hsame, eq_of_getD (by rw [hgoing.size, hsize, hsolves.length]) fun i => ?_⟩
    cases hp : live.points[i]? with
    | some p =>
      rw [(hgoing.settled (by simp [hdone]) hp).2, hsame, (hsolves.getD_behind hp).2]
    | none =>
      grind [Array.getElem?_eq_none_iff, hgoing.size, hsolves.length]

/-- A loop that adds up a number and those below it. -/
def summing : List Instr := [
  .mov (.reg (.abstract "s")) (.imm 0),
  .label "loop",
  .cmp (.reg (.abstract "i")) (.imm 0),
  .jump .je "end",
  .arith .add (.reg (.abstract "s")) (.reg (.abstract "i")),
  .arith .sub (.reg (.abstract "i")) (.imm 1),
  .jump .jmp "loop",
  .label "end",
  .mov (.reg .rax) (.reg (.abstract "s"))]

theorem summing_exact : ∃ live, analyze summing true = .ok live ∧ live.Exact summing true ∧
    live.LiveBehind 6 (.abstract "s") := by
  obtain ⟨live, hlive, hexact⟩ := @analyze_exact summing true (by decide) (by decide)
  -- Behind the jump back the sum is live, for control can come to where it is added to.
  have hflow : ∀ i ∈ [(6, 1), (1, 2), (2, 3), (3, 4)], Follows summing i.1 i.2 := by
    simp only [List.forall_mem_cons]
    exact ⟨⟨_, [1], rfl, by decide +kernel, by decide⟩, ⟨_, [2], rfl, by decide +kernel, by decide⟩,
      ⟨_, [3], rfl, by decide +kernel, by decide⟩, ⟨_, [7, 4], rfl, by decide +kernel, by decide⟩,
      by simp⟩
  have hkept : ∀ i ∈ [1, 2, 3], ¬ Writes summing i (.abstract "s") := by
    simp only [List.forall_mem_cons]
    refine ⟨?_, ?_, ?_, by simp⟩ <;> rintro ⟨x, q, hx, hq, _⟩ <;> cases hx <;> cases hq
  have hread : Reads summing true 4 (.abstract "s") :=
    ⟨_, .abstract "s", rfl, .inl (by decide), rfl⟩
  refine ⟨live, hlive, hexact, (hexact.behind (by decide) _).mpr
    ⟨1, [2, 3, 4], hflow (6, 1) (by decide), ?_⟩⟩
  have hthree := carries_cons.mpr ⟨hflow (3, 4) (by decide), hkept 3 (by decide),
    carries_singleton.mpr hread⟩
  have htwo := carries_cons.mpr ⟨hflow (2, 3) (by decide), hkept 2 (by decide), hthree⟩
  exact carries_cons.mpr ⟨hflow (1, 2) (by decide), hkept 1 (by decide), htwo⟩

end X64Backend.Dataflow
