import X64Backend.Proofs.Dataflow.Live

/-! # Exact liveness

A register is live behind an instruction if and only if control can go on from there to an
instruction that reads the register, along a path on which nothing writes it before. The sets
that the sweeps find are thus the least that satisfy the equations.
-/

namespace X64Backend.Dataflow

open Asm List

/-! ## The least solution -/

/-- A property of positions and register numbers that has all that the equations ask for. -/
def Closed (points : Array Point) (P : Nat → Nat → Prop) : Prop :=
  ∀ (i k : Nat) (p : Point), points[i]? = some p →
    (p.uses.contains k = true ∨ (∃ s ∈ p.succs, P s k) ∧ p.defs.contains k = false) → P i k

/-- All that the sets hold has a property. -/
def Bounded (P : Nat → Nat → Prop) (before : Array KeySet) : Prop :=
  ∀ i k, (before.getD i .empty).contains k = true → P i k

section

variable {points : Array Point} {P : Nat → Nat → Prop} {before : Array KeySet}
variable {i : Nat}

theorem Closed.liveBefore (hP : Closed points P) (h : Bounded P before) {k : Nat} {p : Point}
    (hp : points[i]? = some p) (hk : (p.liveBefore before).contains k = true) : P i k := by
  apply hP i k p hp
  rcases contains_liveBefore.mp hk with ⟨hbehind, hdefs⟩ | huses
  · obtain ⟨s, hs, hk⟩ := contains_liveBehind.mp hbehind
    exact .inr ⟨⟨s, hs, h s k hk⟩, hdefs⟩
  · exact .inl huses

/-- One update keeps the sets below every closed property. -/
theorem Bounded.update (h : Bounded P before) (hP : Closed points P) {p : Point}
    (hp : points[i]? = some p) : Bounded P (before.setIfInBounds i (p.liveBefore before)) := by
  intro j k hk
  rw [Array.getD_eq_getD_getElem?, Array.getElem?_setIfInBounds] at hk
  split at hk
  next hij =>
    subst hij
    split at hk
    · exact hP.liveBefore h hp hk
    · simp at hk
  next =>
    rw [← Array.getD_eq_getD_getElem?] at hk
    exact h j k hk

theorem Bounded.settle (h : Bounded P before) (hP : Closed points P) (fuel : Nat) :
    Bounded P (settle points fuel before) := by
  induction fuel generalizing before with
  | zero => exact h
  | succ fuel ih =>
    rw [Dataflow.settle]
    split
    next => exact h
    next => exact ih (sweep_keeps h fun hp hb => hb.update hP hp)

end

theorem getD_replicate_empty (size i : Nat) :
    (Array.replicate size KeySet.empty).getD i .empty = .empty := by
  simp [Array.getD_eq_getD_getElem?, Array.getElem?_replicate]
  split <;> rfl

theorem bounded_empty (P : Nat → Nat → Prop) (size : Nat) :
    Bounded P (Array.replicate size .empty) := by
  intro i k hk
  rw [getD_replicate_empty] at hk
  simp at hk

section

variable {code : List Instr} {returns : Bool} {live : Liveness}

/-- What is live has every closed property. -/
theorem analyze_bounded (h : analyze code returns = .ok live) {P : Nat → Nat → Prop}
    (hP : Closed live.points P) : Bounded P live.before := by
  obtain ⟨as, _, h⟩ := bind_eq_ok.mp h
  obtain ⟨succs, _, h⟩ := bind_eq_ok.mp h
  cases pure_eq_ok.mp h
  exact (bounded_empty P _).settle hP _

end

/-! ## Paths -/

/-- The instruction at a position reads a register. Registers go by their names. -/
def Reads (code : List Instr) (returns : Bool) (i : Nat) (r : Reg) : Prop :=
  ∃ x q, code[i]? = some x ∧ ReadAt code returns i x q ∧ q.name = r.name

/-- The instruction at a position writes a register. -/
def Writes (code : List Instr) (i : Nat) (r : Reg) : Prop :=
  ∃ x q, code[i]? = some x ∧ q ∈ defs x ∧ q.name = r.name

/-- Control can go from one position to another. -/
def Follows (code : List Instr) (i j : Nat) : Prop :=
  ∃ x succs, code[i]? = some x ∧ successorsAt (labelTable code) code.length i x = .ok succs ∧
    j ∈ succs

/-- Control can go along a path at whose end a register is read and on which it is written
nowhere before. -/
structure Carries (code : List Instr) (returns : Bool) (r : Reg) (path : List Nat) : Prop where
  flow : path.IsChain (Follows code)
  read : ∃ j ∈ path.getLast?, Reads code returns j r
  kept : ∀ j ∈ path.dropLast, ¬ Writes code j r

section

variable {code : List Instr} {returns : Bool} {r : Reg} {i j : Nat} {path : List Nat}

theorem carries_singleton : Carries code returns r [i] ↔ Reads code returns i r := by
  constructor
  · rintro ⟨_, ⟨j, hj, hread⟩, _⟩
    cases hj
    exact hread
  · intro h
    exact ⟨.singleton i, ⟨i, rfl, h⟩, fun j hj => nomatch hj⟩

theorem carries_cons : Carries code returns r (i :: j :: path) ↔
    Follows code i j ∧ ¬ Writes code i r ∧ Carries code returns r (j :: path) := by
  constructor
  · rintro ⟨hflow, hread, hkept⟩
    rw [isChain_cons_cons] at hflow
    rw [dropLast_cons_cons] at hkept
    rw [getLast?_cons_cons] at hread
    exact ⟨hflow.1, hkept i mem_cons_self, hflow.2, hread,
      fun k hk => hkept k (mem_cons_of_mem i hk)⟩
  · rintro ⟨hfollows, hwrites, hflow, hread, hkept⟩
    refine ⟨isChain_cons_cons.mpr ⟨hfollows, hflow⟩, ?_, ?_⟩
    · rwa [getLast?_cons_cons]
    · rw [dropLast_cons_cons]
      exact forall_mem_cons.mpr ⟨hwrites, hkept⟩

end

namespace Liveness

/-- A register is live behind an instruction. -/
def LiveBehind (live : Liveness) (i : Nat) (r : Reg) : Prop :=
  ∃ k, live.vars.id? r = some k ∧ (live.behind.getD i .empty).contains k = true

/-- A register is live before an instruction. -/
def LiveBefore (live : Liveness) (i : Nat) (r : Reg) : Prop :=
  ∃ k, live.vars.id? r = some k ∧ (live.before.getD i .empty).contains k = true

section

variable {live : Liveness} {code : List Instr} {returns : Bool} {i : Nat} {r : Reg}
variable {x : Instr} {p : Point}

theorem id?_eq_of_name {q : Reg} (h : q.name = r.name) : live.vars.id? q = live.vars.id? r := by
  rw [Vars.id?, Vars.id?, h]

variable (h : live.Solves code returns)

include h

/-- Registers with the number of a register are those of its name. -/
theorem Solves.exists_named_iff {k : Nat} (hx : code[i]? = some x)
    (hk : live.vars.id? r = some k) {P : Instr → Reg → Prop} :
    (∃ q, P x q ∧ live.vars.id? q = some k) ↔
      ∃ y q, code[i]? = some y ∧ P y q ∧ q.name = r.name := by
  constructor
  · rintro ⟨q, hq, hid⟩
    obtain ⟨a, ha, hname⟩ := h.fits.id?_eq_some.mp hid
    obtain ⟨b, hb, hname'⟩ := h.fits.id?_eq_some.mp hk
    obtain rfl := Option.some.inj (ha.symm.trans hb)
    exact ⟨x, q, hx, hq, hname.symm.trans hname'⟩
  · rintro ⟨y, q, hy, hq, hname⟩
    obtain rfl := Option.some.inj (hx.symm.trans hy)
    exact ⟨q, hq, (id?_eq_of_name hname).trans hk⟩

theorem Solves.reads_iff {k : Nat} (hx : code[i]? = some x)
    (hp : live.Describes code returns i x p) (hk : live.vars.id? r = some k) :
    p.uses.contains k = true ↔ Reads code returns i r :=
  hp.uses.trans (h.exists_named_iff hx hk)

theorem Solves.writes_iff {k : Nat} (hx : code[i]? = some x)
    (hp : live.Describes code returns i x p) (hk : live.vars.id? r = some k) :
    p.defs.contains k = true ↔ Writes code i r :=
  hp.defs.trans (h.exists_named_iff hx hk (P := fun y q => q ∈ defs y))

theorem Solves.exists_id? (hr : Reads code returns i r) :
    ∃ k, live.vars.id? r = some k := by
  obtain ⟨x, q, hx, hq, hname⟩ := hr
  obtain ⟨k, hk⟩ := h.numbered hx (.inl hq)
  exact ⟨k, (id?_eq_of_name hname).symm.trans hk⟩

omit h

theorem Solves.mem_succs_iff {j : Nat} (hx : code[i]? = some x)
    (hp : live.Describes code returns i x p) : j ∈ p.succs ↔ Follows code i j := by
  constructor
  · exact fun hj => ⟨x, p.succs, hx, hp.succs, hj⟩
  · rintro ⟨y, succs, hy, hsuccs, hj⟩
    obtain rfl := Option.some.inj (hx.symm.trans hy)
    rw [hp.succs] at hsuccs
    rwa [Except.ok.inj hsuccs]

include h

/-- A register is live before an instruction if and only if the instruction reads it, or does
not write it and it is live behind. -/
theorem Solves.liveBefore_iff (hi : i < code.length) :
    live.LiveBefore i r ↔
      Reads code returns i r ∨ live.LiveBehind i r ∧ ¬ Writes code i r := by
  obtain ⟨p, _, hp⟩ := h.point (getElem?_eq_getElem hi)
  have hx := getElem?_eq_getElem hi
  have hbehind : live.behind.getD i .empty = p.liveBehind live.before := by
    rw [Array.getD_eq_getD_getElem?, hp.behind]
    rfl
  constructor
  · rintro ⟨k, hk, hlive⟩
    rw [hp.before, contains_liveBefore, h.reads_iff hx hp hk] at hlive
    rcases hlive with ⟨hlive, hdefs⟩ | hread
    · refine .inr ⟨⟨k, hk, hbehind ▸ hlive⟩, fun hwrites => ?_⟩
      rw [(h.writes_iff hx hp hk).mpr hwrites] at hdefs
      cases hdefs
    · exact .inl hread
  · intro hlive
    rcases hlive with hread | ⟨⟨k, hk, hlive⟩, hwrites⟩
    · obtain ⟨k, hk⟩ := h.exists_id? hread
      refine ⟨k, hk, ?_⟩
      rw [hp.before, contains_liveBefore]
      exact .inr ((h.reads_iff hx hp hk).mpr hread)
    · refine ⟨k, hk, ?_⟩
      rw [hp.before, contains_liveBefore]
      refine .inl ⟨hbehind ▸ hlive, ?_⟩
      rwa [← Bool.not_eq_true, h.writes_iff hx hp hk]

/-- A register is live behind an instruction if and only if it is live before one that can
follow. -/
theorem Solves.liveBehind_iff (hi : i < code.length) :
    live.LiveBehind i r ↔ ∃ j, Follows code i j ∧ live.LiveBefore j r := by
  obtain ⟨p, _, hp⟩ := h.point (getElem?_eq_getElem hi)
  have hx := getElem?_eq_getElem hi
  have hbehind : live.behind.getD i .empty = p.liveBehind live.before := by
    rw [Array.getD_eq_getD_getElem?, hp.behind]
    rfl
  simp only [LiveBehind, LiveBefore, hbehind, contains_liveBehind, Solves.mem_succs_iff hx hp]
  constructor
  · rintro ⟨k, hk, j, hj, hlive⟩
    exact ⟨j, hj, k, hk, hlive⟩
  · rintro ⟨j, hj, k, hk, hlive⟩
    exact ⟨k, hk, j, hj, hlive⟩

/-- A register that is read at the end of a path and written nowhere before is live. -/
theorem Solves.liveBefore_of_carries {path : List Nat}
    (hpath : Carries code returns r (i :: path)) : live.LiveBefore i r := by
  have hlt : ∀ {j path}, Carries code returns r (j :: path) → j < code.length := by
    intro j path hpath
    cases path with
    | nil =>
      obtain ⟨x, _, hx, _⟩ := carries_singleton.mp hpath
      exact (List.getElem?_eq_some_iff.mp hx).1
    | cons l path =>
      obtain ⟨⟨x, _, hx, _⟩, _⟩ := carries_cons.mp hpath
      exact (List.getElem?_eq_some_iff.mp hx).1
  induction path generalizing i with
  | nil => exact (h.liveBefore_iff (hlt hpath)).mpr (.inl (carries_singleton.mp hpath))
  | cons j path ih =>
    grind [carries_cons, h.liveBehind_iff, h.liveBefore_iff]

omit h

end

end Liveness

section

variable {code : List Instr} {returns : Bool} {live : Liveness} {i : Nat} {r : Reg}

/-- Being read at the end of a path is closed under the equations. -/
theorem closed_carries (h : live.Solves code returns) :
    Closed live.points fun i k =>
      ∀ r, live.vars.id? r = some k → ∃ path, Carries code returns r (i :: path) := by
  intro i k p hp hk r hr
  have hi : i < code.length := h.size ▸ (Array.getElem?_eq_some_iff.mp hp).1
  have hx := getElem?_eq_getElem hi
  obtain ⟨q, hq, hdescribes⟩ := h.point hx
  obtain rfl := Option.some.inj (hp.symm.trans hq)
  rcases hk with huses | ⟨⟨s, hs, hpath⟩, hdefs⟩
  · exact ⟨[], carries_singleton.mpr ((h.reads_iff hx hdescribes hr).mp huses)⟩
  · obtain ⟨path, hpath⟩ := hpath r hr
    refine ⟨s :: path, carries_cons.mpr ⟨?_, ?_, hpath⟩⟩
    · exact (Liveness.Solves.mem_succs_iff hx hdescribes).mp hs
    · rw [← h.writes_iff hx hdescribes hr, hdefs]
      exact Bool.false_ne_true

/-- A register is live before an instruction if and only if a path from there carries it. -/
theorem liveBefore_iff_carries (h : analyze code returns = .ok live) :
    live.LiveBefore i r ↔ ∃ path, Carries code returns r (i :: path) := by
  have hsolves := analyze_solves h
  constructor
  · rintro ⟨k, hk, hlive⟩
    exact analyze_bounded h (closed_carries hsolves) i k hlive r hk
  · rintro ⟨path, hpath⟩
    exact hsolves.liveBefore_of_carries hpath

end

end X64Backend.Dataflow
