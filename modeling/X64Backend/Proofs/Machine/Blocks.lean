import X64Backend.Proofs.Machine.Straight

/-! # Runs inside a block of code

A block of a program stands at a position of its own. Straight code there is executed step
by step, and the position does not leave the block before its end. A run is made of the
visits to blocks one after another.
-/

namespace X64Backend.Machine

open Asm List

/-- Executes a number of instructions. -/
def Image.steps (img : Image) : Nat → State → Except (Failure × State) State
  | 0, s => .ok s
  | n + 1, s => img.step s >>= img.steps n

/-- The code stands in the program from a position on. -/
def Image.Holds (img : Image) (i : Nat) (code : List Instr) : Prop :=
  ∀ j x, code[j]? = some x → img.code[i + j]? = some x

/-- Steps taken with the position between two bounds, up to a state. -/
inductive Image.Within (img : Image) (lo hi : Nat) : Nat → State → State → Prop
  | zero (s : State) : Within img lo hi 0 s s
  | succ {n : Nat} {s s' s'' : State} (hlo : lo ≤ s.ip) (hhi : s.ip < hi)
      (h : img.step s = .ok s') (rest : Within img lo hi n s' s'') : Within img lo hi (n + 1) s s''

/-- Steps taken with the position between two bounds, until one fails. -/
inductive Image.FailsWithin (img : Image) (lo hi : Nat) : State → Prop
  | here {s : State} {e : Failure × State} (hlo : lo ≤ s.ip) (hhi : s.ip < hi)
      (h : img.step s = .error e) : FailsWithin img lo hi s
  | there {s s' : State} (hlo : lo ≤ s.ip) (hhi : s.ip < hi) (h : img.step s = .ok s')
      (rest : FailsWithin img lo hi s') : FailsWithin img lo hi s

section

variable {img : Image} {i lo hi n m : Nat} {code a b : List Instr} {x : Instr} {s s' s'' : State}

theorem Image.Holds.left (h : img.Holds i (a ++ b)) : img.Holds i a := by
  intro j x hx
  apply h j x
  obtain ⟨hj, _⟩ := List.getElem?_eq_some_iff.mp hx
  rw [getElem?_append_left hj, hx]

theorem Image.Holds.right (h : img.Holds i (a ++ b)) : img.Holds (i + a.length) b := by
  intro j x hx
  rw [Nat.add_assoc]
  apply h (a.length + j) x
  rw [getElem?_append_right (Nat.le_add_right _ _), Nat.add_sub_cancel_left, hx]

theorem Image.Holds.head (h : img.Holds i (x :: code)) : img.code[i]? = some x :=
  h 0 x rfl

theorem Image.Holds.tail (h : img.Holds i (x :: code)) : img.Holds (i + 1) code :=
  Image.Holds.right (a := [x]) h

/-- Where an instruction stands, a step executes it. -/
theorem Image.step_eq (hx : img.code[i]? = some x) (hip : s.ip = i) :
    img.step s = match img.exec s.advance x with
      | .ok s' => .ok s'
      | .error (t, s') => .error (⟨t, some (s.ip, x)⟩, s') := by
  have hget : img.code.getD s.ip.toNat .absent = x := by
    rw [hip, Int.toNat_natCast, Array.getD_eq_getD_getElem?, hx]
    rfl
  rw [Image.step, hget]
  rfl

theorem Image.step_ok (hx : img.code[i]? = some x) (hip : s.ip = i)
    (h : img.exec s.advance x = .ok s') : img.step s = .ok s' := by
  rw [Image.step_eq hx hip, h]

theorem Image.step_error {e : Trap × State} (hx : img.code[i]? = some x) (hip : s.ip = i)
    (h : img.exec s.advance x = .error e) : ∃ f, img.step s = .error f := by
  rw [Image.step_eq hx hip, h]
  exact ⟨_, rfl⟩

theorem Image.Within.trans (h : img.Within lo hi n s s') (h' : img.Within lo hi m s' s'') :
    img.Within lo hi (n + m) s s'' := by
  induction h with
  | zero => simpa using h'
  | succ hlo hhi hstep _ ih =>
    rw [Nat.add_right_comm]
    exact .succ hlo hhi hstep (ih h')

theorem Image.Within.mono {lo' hi' : Nat} (hlo' : lo' ≤ lo) (hhi' : hi ≤ hi')
    (h : img.Within lo hi n s s') : img.Within lo' hi' n s s' := by
  induction h with
  | zero => exact .zero _
  | succ hlo hhi hstep _ ih => exact .succ (by omega) (by omega) hstep ih

/-- Straight code is executed inside its block. -/
theorem Seq.within {ok : State → Instr → Prop} (h : Seq img ok code s s')
    (hcode : img.Holds i code) (hip : s.ip = i) :
    img.Within i (i + code.length) code.length s s' := by
  induction h generalizing i with
  | nil s => exact .zero s
  | @cons x code s s' s'' hx _ hexec _ ih =>
    have hip' : s'.ip = (i + 1 : Nat) := by
      rw [ip_of_exec hx hexec, State.ip_advance, hip]
      omega
    refine .succ (by omega) (by simp; omega) (Image.step_ok hcode.head hip hexec) ?_
    exact (ih hcode.tail hip').mono (by omega) (by simp; omega)

/-- Straight code that fails does so inside its block. -/
theorem Fails.within (h : Fails img code s) (hcode : img.Holds i code) (hip : s.ip = i)
    (hlo : lo ≤ i) (hhi : i + code.length ≤ hi) : img.FailsWithin lo hi s := by
  induction h generalizing i with
  | @here x code s e hexec =>
    simp only [length_cons] at hhi
    obtain ⟨f, hf⟩ := Image.step_error hcode.head hip hexec
    exact .here (by omega) (by omega) hf
  | @there x code s s' hx hexec _ ih =>
    simp only [length_cons] at hhi
    have hip' : s'.ip = (i + 1 : Nat) := by
      rw [ip_of_exec hx hexec, State.ip_advance, hip]
      omega
    refine .there (by omega) (by omega) (Image.step_ok hcode.head hip hexec) ?_
    exact ih hcode.tail hip' (by omega) (by omega)

theorem Image.steps_add (n m : Nat) (s : State) :
    img.steps (n + m) s = img.steps n s >>= img.steps m := by
  induction n generalizing s with
  | zero =>
    rw [Nat.zero_add]
    rfl
  | succ n ih =>
    rw [Nat.add_right_comm, Image.steps, Image.steps]
    cases img.step s with
    | error e => rfl
    | ok s' => exact ih s'

theorem Image.steps_succ_error {e : Failure × State} (h : img.steps n s = .ok s')
    (he : img.step s' = .error e) : img.steps (n + 1) s = .error e := by
  rw [Image.steps_add, h]
  show img.steps 1 s' = _
  rw [Image.steps, he]
  rfl

/-- A number of steps is taken, and none of the states before the last is at a position. -/
def Image.Passes (img : Image) (stop n : Nat) (s s' : State) : Prop :=
  img.steps n s = .ok s' ∧ ∀ m < n, ∃ t, img.steps m s = .ok t ∧ t.ip ≠ stop

theorem Image.Passes.refl (stop : Nat) (s : State) : img.Passes stop 0 s s := ⟨rfl, by simp⟩

theorem Image.Passes.trans {stop : Nat} (h : img.Passes stop n s s')
    (h' : img.Passes stop m s' s'') : img.Passes stop (n + m) s s'' := by
  refine ⟨by rw [Image.steps_add, h.1]; exact h'.1, ?_⟩
  intro k hk
  by_cases hkn : k < n
  · exact h.2 k hkn
  · obtain ⟨t, ht, hip⟩ := h'.2 (k - n) (by omega)
    refine ⟨t, ?_, hip⟩
    rw [← Nat.add_sub_of_le (Nat.le_of_not_lt hkn), Image.steps_add, h.1]
    exact ht

theorem Image.Within.passes {stop : Nat} (h : img.Within lo hi n s s') (hstop : hi ≤ stop) :
    img.Passes stop n s s' := by
  induction h with
  | zero s => exact .refl stop s
  | @succ n s s' s'' _ hhi hstep _ ih =>
    have hone : img.Passes stop 1 s s' := by
      refine ⟨by rw [Image.steps, hstep]; rfl, ?_⟩
      intro m hm
      obtain rfl : m = 0 := by omega
      exact ⟨s, rfl, by omega⟩
    rw [Nat.add_comm]
    exact hone.trans ih

theorem Seq.steps_eq {ok : State → Instr → Prop} (h : Seq img ok code s s')
    (hcode : img.Holds i code) (hip : s.ip = i) : img.steps code.length s = .ok s' :=
  ((h.within hcode hip).passes (Nat.le_refl _)).1

/-- The run comes to a position for the first time. -/
def Image.Reaches (img : Image) (stop : Nat) (s s' : State) : Prop :=
  ∃ n, img.Passes stop n s s' ∧ s'.ip = stop

/-- The run fails before it comes to a position. -/
def Image.Breaks (img : Image) (stop : Nat) (s : State) : Prop :=
  ∃ n t e, img.Passes stop n s t ∧ t.ip ≠ stop ∧ img.step t = .error e

/-- The run never ends and never comes to a position. -/
def Image.Diverges (img : Image) (stop : Nat) (s : State) : Prop :=
  ∀ n, ∃ t, img.Passes stop n s t ∧ t.ip ≠ stop

theorem Image.FailsWithin.breaks {stop : Nat} (h : img.FailsWithin lo hi s) (hstop : hi ≤ stop) :
    img.Breaks stop s := by
  induction h with
  | @here s e hlo hhi hstep => exact ⟨0, s, e, .refl stop s, by omega, hstep⟩
  | @there s s' hlo hhi hstep _ ih =>
    obtain ⟨n, t, e, hpasses, hip, ht⟩ := ih
    have hwithin : img.Within lo hi 1 s s' := .succ hlo hhi hstep (.zero s')
    exact ⟨1 + n, t, e, (hwithin.passes hstop).trans hpasses, hip, ht⟩

section

variable {stop : Nat}

theorem Image.Passes.reaches (h : img.Passes stop n s s') (h' : img.Reaches stop s' s'') :
    img.Reaches stop s s'' := by
  obtain ⟨m, hpasses, hip⟩ := h'
  exact ⟨n + m, h.trans hpasses, hip⟩

theorem Image.Passes.breaks (h : img.Passes stop n s s') (h' : img.Breaks stop s') :
    img.Breaks stop s := by
  obtain ⟨m, t, e, hpasses, hip, ht⟩ := h'
  exact ⟨n + m, t, e, h.trans hpasses, hip, ht⟩

theorem Image.Reaches.not_breaks (h : img.Reaches stop s s') : ¬ img.Breaks stop s := by
  rintro ⟨m, t, e, hpasses, hip, ht⟩
  obtain ⟨n, hpasses', hip'⟩ := h
  have hfail := Image.steps_succ_error hpasses.1 ht
  rcases Nat.lt_trichotomy n m with hlt | rfl | hlt
  · obtain ⟨u, hu, hne⟩ := hpasses.2 n hlt
    rw [hpasses'.1] at hu
    cases hu
    exact hne hip'
  · have heq := hpasses.1.symm.trans hpasses'.1
    cases heq
    exact hip hip'
  · have hle : m + 1 ≤ n := hlt
    have hn := hpasses'.1
    rw [← Nat.add_sub_of_le hle, Image.steps_add, hfail] at hn
    cases hn

theorem Image.Diverges.not_reaches (h : img.Diverges stop s) (s' : State) :
    ¬ img.Reaches stop s s' := by
  rintro ⟨n, hpasses, hip⟩
  obtain ⟨t, ht, hne⟩ := h n
  have heq := ht.1.symm.trans hpasses.1
  cases heq
  exact hne hip

theorem Image.Diverges.not_breaks (h : img.Diverges stop s) : ¬ img.Breaks stop s := by
  rintro ⟨n, t, e, hpasses, _, ht⟩
  obtain ⟨u, hu, _⟩ := h (n + 1)
  have hn := hu.1
  rw [Image.steps_succ_error hpasses.1 ht] at hn
  cases hn

end

end

end X64Backend.Machine
