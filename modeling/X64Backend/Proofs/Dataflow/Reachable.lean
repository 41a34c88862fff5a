import X64Backend.Proofs.Layout
import X64Backend.Proofs.Outcome

/-! # What can be reached

The positions found from the first one are closed under the successors of every
instruction. The search has as much fuel as it can use: what is stacked and what was not
seen yet are together no more than the fuel that is left.
-/

namespace X64Backend.Dataflow

open Asm List

variable {i : Nat} {seen : KeySet} {succs : Array (List Nat)} {code : List Instr} {x : Instr}

/-- The positions below a bound that were not seen. -/
def unseen (size : Nat) (seen : KeySet) : Nat :=
  (List.range size).countP fun i => !seen.contains i

/-- Seeing one more position leaves one less unseen. -/
theorem unseen_insert {size : Nat} (hi : i < size) (hnew : seen.contains i = false) :
    unseen size (seen.insert i) + 1 = unseen size seen := by
  induction size with
  | zero => omega
  | succ size ih =>
    simp only [unseen, range_succ, countP_append, countP_singleton,
      KeySet.contains_insert] at ih ⊢
    by_cases hlast : i = size
    · subst hlast
      have hrest : (List.range i).countP (fun j => !(seen.contains j || decide (j = i))) =
          (List.range i).countP (fun j => !seen.contains j) := by
        apply countP_congr
        intro j hj
        have hne : j ≠ i := Nat.ne_of_lt (mem_range.mp hj)
        simp [hne]
      rw [hrest]
      simp [hnew]
    · grind

/-- Positions that are stacked were seen, and of positions seen but not stacked all
successors were seen. -/
structure Explored (succs : Array (List Nat)) (stack : List Nat) (seen : KeySet) : Prop where
  seen_of_mem {i : Nat} (h : i ∈ stack) : seen.contains i = true
  closed {i j : Nat} (hi : seen.contains i = true) (hstack : i ∉ stack)
    (hj : j ∈ succs.getD i []) : seen.contains j = true

theorem visit_cons (stack : List Nat) (seen : KeySet) (s : Nat) (rest : List Nat) :
    visit (stack, seen) (s :: rest) =
      visit (if seen.contains s then (stack, seen) else (s :: stack, seen.insert s)) rest := rfl

/-- A visit sees the successors of a position and stacks those that are new. -/
theorem visit_spec {size : Nat} (succs stack : List Nat) (seen : KeySet)
    (hlt : ∀ s ∈ succs, s < size) :
    (∀ i, (visit (stack, seen) succs).2.contains i = true ↔
      seen.contains i = true ∨ i ∈ succs) ∧
    (∀ i, i ∈ (visit (stack, seen) succs).1 ↔
      i ∈ stack ∨ i ∈ succs ∧ seen.contains i = false) ∧
    (visit (stack, seen) succs).1.length + unseen size (visit (stack, seen) succs).2 =
      stack.length + unseen size seen := by
  -- What is stacked is no longer unseen, so the sum of both counts stays.
  induction succs generalizing stack seen with
  | nil => simp [visit]
  | cons s rest ih =>
    have hrest : ∀ s ∈ rest, s < size := fun x hx => hlt x (mem_cons_of_mem _ hx)
    rw [visit_cons]
    by_cases hs : seen.contains s = true
    · rw [if_pos hs]
      obtain ⟨hseen, hstack, hcount⟩ := ih stack seen hrest
      refine ⟨?_, ?_, hcount⟩
      · grind
      · intro i
        rw [hstack, mem_cons]
        constructor
        · rintro (h | ⟨h, hnew⟩)
          · exact .inl h
          · exact .inr ⟨.inr h, hnew⟩
        · grind
    · rw [if_neg hs]
      have hs : seen.contains s = false := by simpa using hs
      obtain ⟨hseen, hstack, hcount⟩ := ih (s :: stack) (seen.insert s) hrest
      have hins := unseen_insert (hlt s mem_cons_self) hs
      refine ⟨?_, ?_, ?_⟩
      · intro i
        rw [hseen]
        simp [or_assoc]
      · intro i
        rw [hstack]
        by_cases his : i = s
        · subst his
          simp [hs]
        · simp [his]
      · rw [hcount, length_cons]
        omega

variable (hlt : ∀ i, ∀ s ∈ succs.getD i [], s < succs.size)

include hlt

theorem reachFrom_spec {fuel : Nat}
    {stack : List Nat} (h : Explored succs stack seen)
    (hfuel : stack.length + unseen succs.size seen ≤ fuel) :
    (∀ i, seen.contains i = true → (reachFrom succs fuel (stack, seen)).contains i = true) ∧
    Explored succs [] (reachFrom succs fuel (stack, seen)) := by
  -- Each visit takes one position off the stack, so the fuel lasts.
  induction fuel generalizing stack seen with
  | zero =>
    obtain rfl : stack = [] := eq_nil_of_length_eq_zero (by omega)
    exact ⟨fun _ hi => hi, h⟩
  | succ fuel ih =>
    cases stack with
    | nil => exact ⟨fun _ hi => hi, h⟩
    | cons i stack =>
      obtain ⟨hseen, hstack, hcount⟩ := visit_spec (succs.getD i []) stack seen (hlt i)
      rw [length_cons] at hfuel
      have hnext : Explored succs (visit (stack, seen) (succs.getD i [])).1
          (visit (stack, seen) (succs.getD i [])).2 := by
        constructor
        · intro j hj
          rw [hseen]
          rcases (hstack j).mp hj with hj | ⟨hj, _⟩
          · exact .inl (h.seen_of_mem (mem_cons_of_mem _ hj))
          · exact .inr hj
        · intro j k hj hnot hk
          rw [hseen]
          rw [hstack] at hnot
          by_cases hji : j = i
          · subst hji
            exact .inr hk
          · have hjseen : seen.contains j = true := by
              rcases (hseen j).mp hj with hj | hj
              · exact hj
              · by_contra hnew
                exact hnot (.inr ⟨hj, by simpa using hnew⟩)
            left
            apply h.closed hjseen _ hk
            intro hmem
            rcases mem_cons.mp hmem with rfl | hmem
            · exact hji rfl
            · exact hnot (.inl hmem)
      obtain ⟨hsub, hend⟩ := ih hnext (by omega)
      exact ⟨fun j hj => hsub j ((hseen j).mpr (.inl hj)), hend⟩

/-- The first position can be reached, and so can every successor of a position that
can. -/
theorem reachable_spec :
    (reachable succs).contains 0 = true ∧
    ∀ i j, (reachable succs).contains i = true → j ∈ succs.getD i [] →
      (reachable succs).contains j = true := by
  have hstart : Explored succs [0] (KeySet.empty.insert 0) := by
    constructor
    · intro i hi
      simpa using hi
    · intro i j hi hnot
      simp at hi
      exact absurd hi (by simpa using hnot)
  have hunseen : unseen succs.size (KeySet.empty.insert 0) ≤ succs.size := by
    apply Nat.le_trans countP_le_length
    exact Nat.le_of_eq length_range
  have hfuel : [0].length + unseen succs.size (KeySet.empty.insert 0) ≤ succs.size + 1 := by
    rw [length_singleton]
    omega
  obtain ⟨hsub, hend⟩ := reachFrom_spec hlt hstart hfuel
  refine ⟨hsub 0 (by simp), ?_⟩
  intro i j hi hj
  exact hend.closed hi (by simp) hj

/-- What holds of all positions seen and is passed on to successors holds of all positions found
from them. -/
theorem reachFrom_induction {P : Nat → Prop}
    (hstep : ∀ i j, P i → j ∈ succs.getD i [] → P j) {fuel : Nat} {stack : List Nat}
    (hstack : ∀ i ∈ stack, P i) (hseen : ∀ i, seen.contains i = true → P i)
    (hi : (reachFrom succs fuel (stack, seen)).contains i = true) : P i := by
  induction fuel generalizing stack seen with
  | zero => exact hseen i hi
  | succ fuel ih =>
    cases stack with
    | nil => exact hseen i hi
    | cons k stack =>
      obtain ⟨hvisited, hstacked, _⟩ := visit_spec (succs.getD k []) stack seen (hlt k)
      have hnew : ∀ j ∈ succs.getD k [], P j :=
        fun j hj => hstep k j (hstack k mem_cons_self) hj
      refine ih (fun j hj => ?_) (fun j hj => ?_) hi
      · rcases (hstacked j).mp hj with hj | ⟨hj, _⟩
        · exact hstack j (mem_cons_of_mem _ hj)
        · exact hnew j hj
      · exact ((hvisited j).mp hj).elim (hseen j) (hnew j)

/-- What holds of the first position and is passed on to successors holds of every position that
can be reached. -/
theorem reachable_induction {P : Nat → Prop}
    (hzero : P 0) (hstep : ∀ i j, P i → j ∈ succs.getD i [] → P j)
    (hi : (reachable succs).contains i = true) : P i := by
  refine reachFrom_induction hlt hstep (fun j hj => ?_) (fun j hj => ?_) hi
  · rwa [mem_singleton.mp hj]
  · obtain rfl : j = 0 := by simpa using hj
    exact hzero

/-- Every position that can be reached, but for the first, follows one that can. -/
theorem reachable_origin (hi : (reachable succs).contains i = true) :
    i = 0 ∨ ∃ j, (reachable succs).contains j = true ∧ i ∈ succs.getD j [] := by
  obtain ⟨hzero, hclosed⟩ := reachable_spec hlt
  refine (reachable_induction hlt (P := fun i => (reachable succs).contains i = true ∧
    (i = 0 ∨ ∃ j, (reachable succs).contains j = true ∧ i ∈ succs.getD j [])) ⟨hzero, .inl rfl⟩
    (fun j k hj hk => ?_) hi).2
  exact ⟨hclosed j k hj.1 hk, .inr ⟨j, hj.1, hk⟩⟩

omit hlt

theorem successorsAt_lt {s : Nat} {ss : List Nat}
    (h : successorsAt (labelTable code) code.length i x = .ok ss) (hs : s ∈ ss) :
    s < code.length := by
  have hfall : ∀ s ∈ fallThrough code.length i, s < code.length := by
    grind [fallThrough, mem_singleton]
  cases x with
  | jump cond target =>
    simp only [successorsAt, labelTable_getElem?] at h
    split at h
    next t ht =>
      cases h
      rcases mem_cons.mp hs with rfl | hs
      · exact position?_lt ht
      · split at hs
        · exact hfall s hs
        · cases hs
    next => cases h
  | ret =>
    cases h
    cases hs
  | _ =>
    cases h
    exact hfall s hs

variable (h : successors code = .ok succs)

include h

/-- The successors of code, instruction by instruction. -/
theorem successors_spec :
    succs.size = code.length ∧ ∀ i x, code[i]? = some x →
      successorsAt (labelTable code) code.length i x = .ok (succs.getD i []) := by
  obtain ⟨lists, hlists, h⟩ := bind_eq_ok.mp h
  cases pure_eq_ok.mp h
  have hforall := mapM_eq_ok.mp hlists
  have hlength := hforall.length_eq
  rw [length_zipIdx] at hlength
  refine ⟨by simp [hlength], ?_⟩
  intro i x hx
  obtain ⟨hi, rfl⟩ := List.getElem?_eq_some_iff.mp hx
  have hi' : i < lists.length := by omega
  have hat := hforall.get (i := i) (by simpa using hi) hi'
  simpa [hi'] using hat

theorem successors_lt :
    ∀ i, ∀ s ∈ succs.getD i [], s < succs.size := by
  obtain ⟨hsize, hat⟩ := successors_spec h
  intro i s hs
  rw [hsize]
  by_cases hi : i < code.length
  · exact successorsAt_lt (hat i code[i] (getElem?_eq_getElem hi)) hs
  · rw [Array.getD, dif_neg (by omega)] at hs
    cases hs

/-- Every label that code with successors jumps to stands in it, among the successors of
the jump. -/
theorem target_mem_successors {cond : Cond} {target : Name}
    (hi : code[i]? = some (.jump cond target)) :
    ∃ t, position? code target = some t ∧ t ∈ succs.getD i [] := by
  have hat := (successors_spec h).2 i _ hi
  simp only [successorsAt, labelTable_getElem?] at hat
  split at hat
  next t ht =>
    refine ⟨t, ht, ?_⟩
    rw [← Except.ok.inj hat]
    exact mem_cons_self
  next => cases hat

/-- What is neither a jump nor a return is followed by the next instruction. -/
theorem next_mem_successors (hx : code[i]? = some x)
    (hjump : ∀ l, x ≠ .jump .jmp l) (hret : x ≠ .ret) (hlt : i + 1 < code.length) :
    i + 1 ∈ succs.getD i [] := by
  have hat := (successors_spec h).2 i x hx
  cases x with
  | jump cond target =>
    simp only [successorsAt] at hat
    split at hat
    next t _ =>
      have hcond : cond.isConditional = true := by
        cases cond with
        | jmp => exact absurd rfl (hjump target)
        | _ => rfl
      rw [← Except.ok.inj hat, hcond]
      simp [fallThrough, hlt]
    next => cases hat
  | ret => exact absurd rfl hret
  | _ =>
    rw [← Except.ok.inj hat]
    simp [fallThrough, hlt]

/-- A successor is the next position, or that of the label that a jump goes to. -/
theorem successor_cases {j : Nat} (hx : code[i]? = some x)
    (hj : j ∈ succs.getD i []) :
    (j = i + 1 ∧ (∀ l, x ≠ .jump .jmp l) ∧ x ≠ .ret) ∨
      ∃ c l, x = .jump c l ∧ position? code l = some j := by
  have hfall : ∀ j ∈ fallThrough code.length i, j = i + 1 := by
    grind [fallThrough, mem_singleton]
  have hat := (successors_spec h).2 i x hx
  cases x with
  | jump cond target =>
    simp only [successorsAt, labelTable_getElem?] at hat
    split at hat
    next t ht =>
      rw [← Except.ok.inj hat] at hj
      rcases mem_cons.mp hj with rfl | hj
      · exact .inr ⟨cond, target, rfl, ht⟩
      · split at hj
        next hcond =>
          refine .inl ⟨hfall j hj, fun l hl => ?_, fun hl => nomatch hl⟩
          obtain ⟨rfl, _⟩ := Instr.jump.inj hl
          cases hcond
        next => cases hj
    next => cases hat
  | ret =>
    rw [← Except.ok.inj hat] at hj
    cases hj
  | _ =>
    rw [← Except.ok.inj hat] at hj
    exact .inl ⟨hfall j hj, fun l hl => (nomatch hl), fun hl => nomatch hl⟩

omit h

/-- Code has no successors only if it jumps to a label that it does not have. -/
theorem successors_eq_error {d : Defect} (h : successors code = .error d) :
    ∃ l ∈ targets code, l ∉ labels code ∧ d = .undefinedLabel l := by
  rcases bind_eq_error.mp h with hlists | ⟨_, _, h⟩
  · obtain ⟨⟨x, i⟩, hmem, hfail⟩ := exists_of_mapM_eq_error hlists
    have hx : x ∈ code := mem_of_getElem? (mem_zipIdx_iff_getElem?.mp hmem)
    cases x with
    | jump cond target =>
      simp only [successorsAt, labelTable_getElem?] at hfail
      split at hfail
      next => cases hfail
      next hnone =>
        cases hfail
        exact ⟨target, mem_targets.mpr ⟨cond, hx⟩, position?_eq_none.mp hnone, rfl⟩
    | _ => cases hfail
  · cases h

/-- Code that jumps to labels of its own has successors. -/
theorem exists_successors (h : ∀ l ∈ targets code, l ∈ labels code) :
    ∃ succs, successors code = .ok succs := by
  cases hsuccs : successors code with
  | ok succs => exact ⟨succs, rfl⟩
  | error d =>
    obtain ⟨l, hl, hnot, _⟩ := successors_eq_error hsuccs
    exact absurd (h l hl) hnot

end X64Backend.Dataflow
