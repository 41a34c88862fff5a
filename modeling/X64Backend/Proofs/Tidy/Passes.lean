import Mathlib.Data.List.Perm.Subperm
import X64Backend.Proofs.Tidy.Labels
import X64Backend.Proofs.Tidy.Thinning

/-! # Tidying does not change behaviour

Each of the steps of tidying thins the code, so any number of rounds of them leaves code
that runs as before.
-/

namespace X64Backend.Tidy

open Asm Machine Dataflow List

/-- The second code is orderly and runs as the first. -/
structure Preserves (globals : Std.TreeMap Name Int64) (code out : List Instr) : Prop where
  orderly : Orderly globals out
  sameRuns : SameRuns globals code out

section

variable {globals : Std.TreeMap Name Int64} {code out : List Instr}
variable {x : Instr} {l : Name}

theorem Preserves.refl (h : Orderly globals code) : Preserves globals code code :=
  ⟨h, .refl globals code⟩

theorem Preserves.trans {a b c : List Instr} (hab : Preserves globals a b)
    (hbc : Preserves globals b c) : Preserves globals a c :=
  ⟨hbc.orderly, hab.sameRuns.trans hbc.sameRuns⟩

theorem Thins.preserves {dest : Name → Name} {m : Marked} {reached : Nat → Prop}
    (h : Thins dest m reached) (hord : Orderly globals code) (hsource : m.source = code)
    (hkept : m.kept dest = out) : Preserves globals code out := by
  subst hsource hkept
  exact ⟨h.orderly hord, h.sameRuns hord⟩

theorem retarget_id (x : Instr) : retarget id x = x := by
  cases x <;> rfl

/-- Code in which what has a property stays. -/
def Marked.ofFilter (p : Instr → Bool) (code : List Instr) : Marked := code.map fun x => (x, p x)

@[simp] theorem Marked.source_ofFilter (p : Instr → Bool) (code : List Instr) :
    (Marked.ofFilter p code).source = code := by
  simp [source, ofFilter, Function.comp_def]

theorem Marked.getElem?_ofFilter {p : Instr → Bool} {i : Nat} {k : Bool} :
    (Marked.ofFilter p code)[i]? = some (x, k) ↔ code[i]? = some x ∧ p x = k := by
  grind [ofFilter, Option.map_eq_some_iff, Prod.mk.injEq]

theorem Marked.kept_ofFilter (p : Instr → Bool) (code : List Instr) :
    (Marked.ofFilter p code).kept id = code.filter p := by
  induction code with
  | nil => rfl
  | cons x rest ih =>
    rw [filter_cons, ← ih]
    cases hp : p x <;> simp [ofFilter, kept, hp, retarget_id]

variable (hord : Orderly globals code)

include hord

/-- Dropping labels that nothing jumps to and comments thins the code. -/
theorem Preserves.filter {p : Instr → Bool}
    (hidle : ∀ x ∈ code, p x = false → (∃ l, x = .label l) ∨ ∃ t, x = .comment t)
    (hlabel : ∀ l ∈ targets code, p (.label l) = true) :
    Preserves globals code (code.filter p) := by
  have hthins : Thins id (Marked.ofFilter p code) fun _ => True := by
    constructor
    · trivial
    · exact fun _ => trivial
    · exact fun _ _ _ => trivial
    · exact fun _ _ _ => trivial
    · intro i q c l hx hq
      rw [Marked.getElem?_ofFilter] at hx
      rw [Marked.source_ofFilter] at hq
      have hl := hlabel l (mem_targets.mpr ⟨c, mem_of_getElem? hx.1⟩)
      apply Marked.Lands.here
      exact Marked.getElem?_ofFilter.mpr ⟨getElem?_of_position? hq, hl⟩
    · intro i x hx _
      rw [Marked.getElem?_ofFilter] at hx
      rcases hidle x (mem_of_getElem? hx.1) hx.2 with ⟨l, rfl⟩ | ⟨t, rfl⟩
      · trivial
      · trivial
  exact hthins.preserves hord (Marked.source_ofFilter p code) (Marked.kept_ofFilter p code)

theorem Preserves.dropComments :
    Preserves globals code (dropComments code) := by
  apply Preserves.filter hord
  · intro x _ hx
    cases x with
    | comment t => exact .inr ⟨t, rfl⟩
    | _ => cases hx
  · exact fun _ _ => rfl

theorem Preserves.withoutIdleLabels :
    Preserves globals code (withoutIdleLabels code) := by
  apply Preserves.filter hord
  · intro x _ hx
    cases x with
    | label l => exact .inl ⟨l, rfl⟩
    | _ => cases hx
  · intro l hl
    exact contains_iff_mem.mpr hl

omit hord

/-- Code in which what does not jump to the label behind it stays. -/
def Marked.ofJumps : List Instr → Marked
  | [] => []
  | x :: rest => (x, !jumpsTo x rest.head?) :: Marked.ofJumps rest

theorem Marked.getElem?_ofJumps (code : List Instr) (i : Nat) :
    (Marked.ofJumps code)[i]? = code[i]?.map fun x => (x, !jumpsTo x code[i + 1]?) := by
  induction code generalizing i with
  | nil => rfl
  | cons x rest ih =>
    cases i with
    | zero => simp [ofJumps, head?_eq_getElem?]
    | succ i => simpa [ofJumps] using ih i

theorem Marked.source_ofJumps (code : List Instr) : (Marked.ofJumps code).source = code := by
  induction code with
  | nil => rfl
  | cons x rest ih => exact congrArg (x :: ·) ih

theorem Marked.kept_ofJumps (code : List Instr) :
    (Marked.ofJumps code).kept id = withoutIdleJumps code := by
  induction code with
  | nil => rfl
  | cons x rest ih =>
    rw [withoutIdleJumps, ← ih]
    cases hj : jumpsTo x rest.head? <;> simp [ofJumps, kept, hj, retarget_id]

theorem jumpsTo_eq_true {y : Option Instr} (h : jumpsTo x y = true) :
    ∃ c l, x = .jump c l ∧ y = some (.label l) := by
  unfold jumpsTo at h
  split at h
  next c target l => exact ⟨c, target, rfl, by rw [beq_iff_eq.mp h]⟩
  next => cases h

include hord in
theorem Preserves.withoutIdleJumps :
    Preserves globals code (withoutIdleJumps code) := by
  have hthins : Thins id (Marked.ofJumps code) fun _ => True := by
    constructor
    · trivial
    · exact fun _ => trivial
    · exact fun _ _ _ => trivial
    · exact fun _ _ _ => trivial
    · intro i q c l _ hq
      rw [Marked.source_ofJumps] at hq
      apply Marked.Lands.here
      rw [Marked.getElem?_ofJumps, getElem?_of_position? hq]
      rfl
    · intro i x hx _
      rw [Marked.getElem?_ofJumps, Option.map_eq_some_iff] at hx
      obtain ⟨y, hy, heq⟩ := hx
      obtain ⟨rfl, hjumps⟩ := Prod.mk.inj heq
      obtain ⟨c, l, rfl, hl⟩ := jumpsTo_eq_true (by simpa using hjumps)
      show position? (Marked.ofJumps code).source l = some (i + 1)
      rw [Marked.source_ofJumps]
      exact position?_eq_some_of_nodup hord.nodup hl
  exact hthins.preserves hord (Marked.source_ofJumps code) (Marked.kept_ofJumps code)

/-- Code in which what stands at positions of a set stays. -/
def Marked.ofPositions (keep : KeySet) (code : List Instr) : Marked :=
  code.zipIdx.map fun (x, i) => (x, keep.contains i)

theorem Marked.getElem?_ofPositions {keep : KeySet} {i : Nat} {k : Bool} :
    (Marked.ofPositions keep code)[i]? = some (x, k) ↔
      code[i]? = some x ∧ keep.contains i = k := by
  simp [ofPositions, getElem?_zipIdx]

theorem Marked.source_ofPositions (keep : KeySet) (code : List Instr) :
    (Marked.ofPositions keep code).source = code := by
  rw [source, ofPositions, map_map]
  exact zipIdx_map_fst 0 code

theorem Marked.kept_ofPositions (keep : KeySet) (code : List Instr) :
    (Marked.ofPositions keep code).kept id = atPositions code keep := by
  rw [kept, ofPositions, atPositions, filterMap_map, ← filterMap_eq_map,
    ← filterMap_eq_filter, filterMap_filterMap]
  apply filterMap_congr
  rintro ⟨x, i⟩ _
  cases hp : keep.contains i <;> simp [Option.guard, hp, retarget_id]

include hord in
theorem Preserves.dropUnreachable :
    ∃ out changed, dropUnreachable code = .ok (out, changed) ∧ Preserves globals code out := by
  unfold Tidy.dropUnreachable
  by_cases hempty : code.isEmpty
  · rw [if_pos hempty]
    exact ⟨code, false, rfl, .refl hord⟩
  rw [if_neg hempty]
  obtain ⟨succs, hsuccs⟩ := exists_successors hord.defined
  refine ⟨_, _, by rw [hsuccs]; rfl, ?_⟩
  obtain ⟨hzero, hclosed⟩ := reachable_spec (successors_lt hsuccs)
  obtain ⟨hsize, hat⟩ := successors_spec hsuccs
  -- Runs come to positions that are reachable, or behind the end.
  have hthins : Thins id (Marked.ofPositions (reachable succs) code)
      fun i => code.length ≤ i ∨ (reachable succs).contains i = true := by
    constructor
    · exact .inr hzero
    · intro i x hx
      exact .inr (Marked.getElem?_ofPositions.mp hx).2
    · intro i x k hx hi hjump
      obtain ⟨hx, _⟩ := Marked.getElem?_ofPositions.mp hx
      obtain ⟨hlt, _⟩ := List.getElem?_eq_some_iff.mp hx
      by_cases hnext : i + 1 < code.length
      · right
        have hret : x ≠ .ret := by
          rintro rfl
          rcases hord.proceeds (mem_of_getElem? hx) with hp | ⟨_, _, heq, _⟩
          · cases hp
          · cases heq
        apply hclosed i (i + 1) (hi.resolve_left (by omega))
        exact next_mem_successors hsuccs hx hjump hret hnext
      · exact .inl (by omega)
    · intro i q c l k hx hi hq
      obtain ⟨hx, _⟩ := Marked.getElem?_ofPositions.mp hx
      obtain ⟨hlt, _⟩ := List.getElem?_eq_some_iff.mp hx
      rw [Marked.source_ofPositions] at hq
      obtain ⟨t, ht, hmem⟩ := target_mem_successors hsuccs hx
      rw [hq] at ht
      cases ht
      exact .inr (hclosed i q (hi.resolve_left (by omega)) hmem)
    · intro i q c l hx hq
      obtain ⟨hx, hi⟩ := Marked.getElem?_ofPositions.mp hx
      rw [Marked.source_ofPositions] at hq
      obtain ⟨t, ht, hmem⟩ := target_mem_successors hsuccs hx
      rw [hq] at ht
      cases ht
      apply Marked.Lands.here
      exact Marked.getElem?_ofPositions.mpr ⟨getElem?_of_position? hq, hclosed i q hi hmem⟩
    · intro i x hx hi
      obtain ⟨hx, hnot⟩ := Marked.getElem?_ofPositions.mp hx
      obtain ⟨hlt, _⟩ := List.getElem?_eq_some_iff.mp hx
      rw [hi.resolve_left (by omega)] at hnot
      cases hnot
  exact hthins.preserves hord (Marked.source_ofPositions _ code) (Marked.kept_ofPositions _ code)

/-- What stays of rows of labels. -/
def staysInRow (next : Std.TreeMap Name Name) : Instr → Bool
  | .label l => !next.contains l
  | _ => true

/-- How many labels of rows stand from a position on. -/
def rowsFrom (next : Std.TreeMap Name Name) (code : List Instr) (p : Nat) : Nat :=
  (labels (code.drop p)).countP next.contains

theorem rowsFrom_le (next : Std.TreeMap Name Name) (hnodup : (labels code).Nodup) (p : Nat) :
    rowsFrom next code p ≤ next.size := by
  have hdrop : (labels (code.drop p)).Nodup :=
    hnodup.sublist (labels_sublist (drop_sublist p code))
  rw [rowsFrom, countP_eq_length_filter, ← Std.TreeMap.length_keys]
  apply (List.Nodup.subperm (hdrop.filter _) ?_).length_le
  intro l hl
  rw [Std.TreeMap.mem_keys, ← Std.TreeMap.contains_iff_mem]
  exact (mem_filter.mp hl).2

theorem rowsFrom_succ {next : Std.TreeMap Name Name} {p : Nat} (hl : code[p]? = some (.label l))
    (hnext : next.contains l = true) : rowsFrom next code p = rowsFrom next code (p + 1) + 1 := by
  obtain ⟨hp, hget⟩ := List.getElem?_eq_some_iff.mp hl
  rw [rowsFrom, rowsFrom, ← getElem_cons_drop hp, hget]
  simp [Instr.label?, hnext]

/-- From each label of a row, jumps go to the last one. -/
theorem exists_lastLabel (hnodup : (labels code).Nodup) {fuel p : Nat}
    (hl : code[p]? = some (.label l)) (hfuel : rowsFrom (rows code) code p < fuel) :
    ∃ last, lastLabel (rows code) fuel l = .ok last ∧
      (Marked.ofFilter (staysInRow (rows code)) code).Lands p last := by
  induction fuel generalizing p l with
  | zero => omega
  | succ fuel ih =>
    rw [lastLabel]
    cases hnext : (rows code)[l]? with
    | none =>
      refine ⟨l, rfl, .here (Marked.getElem?_ofFilter.mpr ⟨hl, ?_⟩)⟩
      simp [staysInRow, Std.TreeMap.contains_eq_isSome_getElem?, hnext]
    | some n =>
      have hcontains : (rows code).contains l = true := by
        simp [Std.TreeMap.contains_eq_isSome_getElem?, hnext]
      -- Labels stand once, so the row goes on right behind this label.
      have hn : code[p + 1]? = some (.label n) := by
        rcases getElem?_nextLabels hnext with ⟨i, hi, hn⟩ | htable
        · have hpi : p = i := by
            have hp := position?_eq_some_of_nodup hnodup hl
            rw [position?_eq_some_of_nodup hnodup hi] at hp
            exact (Option.some.inj hp).symm
          rw [hpi]
          exact hn
        · simp at htable
      rw [rowsFrom_succ hl hcontains] at hfuel
      obtain ⟨last, hlast, q, hpq, hdropped, hq⟩ := ih hn (by omega)
      refine ⟨last, hlast, q, by omega, ?_, hq⟩
      intro i hi hiq
      by_cases hip : i = p
      · subst hip
        refine ⟨.label l, Marked.getElem?_ofFilter.mpr ⟨hl, ?_⟩⟩
        simp [staysInRow, hcontains]
      · exact hdropped i (by omega) hiq

/-- The last label of a row, or the label itself where the row has no end. -/
def rowEnd (next : Std.TreeMap Name Name) (l : Name) : Name :=
  match lastLabel next (next.size + 1) l with
  | .ok last => last
  | .error _ => l

/-- In code whose labels stand once, what a jump goes to is the end of a row. -/
theorem rowEnd_spec (hnodup : (labels code).Nodup) (hdefined : ∀ l ∈ targets code, l ∈ labels code)
    {c : Cond} (hjump : .jump c l ∈ code) :
    ∃ p, position? code l = some p ∧
      lastLabel (rows code) ((rows code).size + 1) l =
        .ok (rowEnd (rows code) l) ∧
      (Marked.ofFilter (staysInRow (rows code)) code).Lands p
        (rowEnd (rows code) l) := by
  obtain ⟨p, hp⟩ := exists_position? (hdefined l (mem_targets.mpr ⟨c, hjump⟩))
  have hfuel := Nat.lt_succ_of_le (rowsFrom_le (rows code) hnodup p)
  obtain ⟨last, hlast, hlands⟩ :=
    exists_lastLabel hnodup (getElem?_of_position? hp) hfuel
  have hend : rowEnd (rows code) l = last := by simp only [rowEnd, hlast]
  exact ⟨p, hp, by rw [hend, hlast], by rwa [hend]⟩

theorem coalesceInstr_eq_ok (hnodup : (labels code).Nodup)
    (hdefined : ∀ l ∈ targets code, l ∈ labels code) (hx : x ∈ code) :
    coalesceInstr (rows code) x =
      .ok (if staysInRow (rows code) x then
        some (retarget (rowEnd (rows code)) x) else none) := by
  cases x with
  | label l =>
    by_cases hl : (rows code).contains l = true <;>
      simp [coalesceInstr, staysInRow, retarget, hl]
  | jump c l =>
    obtain ⟨_, _, hlast, _⟩ := rowEnd_spec hnodup hdefined hx
    simp only [coalesceInstr, hlast]
    rfl
  | _ => rfl

/-- Rows of labels are made one where labels stand once and jumps go to them. -/
theorem coalesceLabels_eq (hnodup : (labels code).Nodup)
    (hdefined : ∀ l ∈ targets code, l ∈ labels code) :
    coalesceLabels code = .ok (if (rows code).isEmpty then (code, false) else
      ((Marked.ofFilter (staysInRow (rows code)) code).kept
        (rowEnd (rows code)), true)) := by
  unfold coalesceLabels
  have hmap : code.mapM (coalesceInstr (rows code)) = .ok (code.map fun x =>
      if staysInRow (rows code) x then
        some (retarget (rowEnd (rows code)) x) else none) := by
    rw [mapM_eq_ok, forall₂_map_right_iff, forall₂_same]
    exact fun x hx => coalesceInstr_eq_ok hnodup hdefined hx
  cases hempty : (rows code).isEmpty with
  | true => exact if_pos hempty
  | false =>
    simp only [hempty, hmap]
    refine congrArg (fun kept => Except.ok (kept, true)) ?_
    rw [Marked.kept, Marked.ofFilter, filterMap_map, filterMap_map]
    rfl

include hord

theorem Preserves.coalesceLabels :
    ∃ out changed, coalesceLabels code = .ok (out, changed) ∧ Preserves globals code out := by
  rw [coalesceLabels_eq hord.nodup hord.defined]
  cases (rows code).isEmpty with
  | true => exact ⟨code, false, rfl, .refl hord⟩
  | false =>
    refine ⟨_, true, rfl, ?_⟩
    have hthins : Thins (rowEnd (rows code))
        (Marked.ofFilter (staysInRow (rows code)) code) fun _ => True := by
      constructor
      · trivial
      · exact fun _ => trivial
      · exact fun _ _ _ => trivial
      · exact fun _ _ _ => trivial
      · intro i p c l hx hp
        rw [Marked.source_ofFilter] at hp
        have hmem := mem_of_getElem? (Marked.getElem?_ofFilter.mp hx).1
        obtain ⟨q, hq, _, hlands⟩ := rowEnd_spec hord.nodup hord.defined hmem
        rw [hp] at hq
        cases hq
        exact hlands
      · intro i x hx _
        have hdropped := (Marked.getElem?_ofFilter.mp hx).2
        cases x with
        | label l => trivial
        | _ => cases hdropped
    exact hthins.preserves hord (Marked.source_ofFilter _ code) rfl

/-- A round of tidying keeps orderly code orderly and its behaviour. -/
theorem Preserves.round :
    ∃ out changed, round code = .ok (out, changed) ∧ Preserves globals code out := by
  obtain ⟨a, coalesced, ha, hpa⟩ := Preserves.coalesceLabels hord
  obtain ⟨b, dropped, hb, hpb⟩ := Preserves.dropUnreachable hpa.orderly
  have hpc := Preserves.withoutIdleJumps hpb.orderly
  have hpd := Preserves.withoutIdleLabels hpc.orderly
  exact ⟨_, _, bind_eq_ok.mpr ⟨_, ha, bind_eq_ok.mpr ⟨_, hb, rfl⟩⟩,
    ((hpa.trans hpb).trans hpc).trans hpd⟩

theorem Preserves.rounds (fuel : Nat) :
    ∃ out, rounds fuel code = .ok out ∧ Preserves globals code out := by
  induction fuel generalizing code with
  | zero => exact ⟨code, rfl, .refl hord⟩
  | succ fuel ih =>
    obtain ⟨next, changed, hround, hnext⟩ := Preserves.round hord
    cases changed with
    | false =>
      refine ⟨next, ?_, hnext⟩
      rw [Tidy.rounds, hround]
      rfl
    | true =>
      obtain ⟨out, hout, hpreserves⟩ := ih hnext.orderly
      refine ⟨out, ?_, hnext.trans hpreserves⟩
      rw [Tidy.rounds, hround]
      exact hout

omit hord

/-- Tidying orderly code gives code that runs as it did from every state at the first
instruction, in no more steps. -/
theorem tidy_sameRuns (removeComments : Bool) (hord : Orderly globals code) :
    ∃ out, tidy removeComments code = .ok out ∧ SameRuns globals code out := by
  cases removeComments with
  | false =>
    obtain ⟨out, hout, hpreserves⟩ := Preserves.rounds hord (code.length + 1)
    exact ⟨out, hout, hpreserves.sameRuns⟩
  | true =>
    have hdrop := Preserves.dropComments hord
    obtain ⟨out, hout, hpreserves⟩ :=
      Preserves.rounds hdrop.orderly ((dropComments code).length + 1)
    exact ⟨out, hout, (hdrop.trans hpreserves).sameRuns⟩

end

/-- A loop with two labels at its head and a jump to the end behind it. -/
def countdown : List Instr :=
  [.label "A", .label "B", .comment "again", .arith .sub (.reg (.machine .rcx)) (.imm 1),
    .cmp (.reg (.machine .rcx)) (.imm 0), .jump .jg "A", .jump .jmp "C", .label "C"]

theorem countdown_sameRuns :
    (labels countdown).Nodup ∧ ∃ out, tidy true countdown = .ok out ∧ SameRuns ∅ countdown out :=
  ⟨by decide, tidy_sameRuns true ⟨by decide, by decide, by decide, by decide⟩⟩

/-- Code that takes the address of one of its labels, which has the name of a built-in
function. -/
def labelAddress : List Instr :=
  [.label "_builtin_println", .mov (.reg .rax) (.const (.sym "_builtin_println"))]

/-- The condition that symbols are no labels cannot be left out: a label that nothing jumps
to is dropped, even if its address is taken. -/
theorem labelAddress_fails_when_tidy :
    Builtin.ofName? "_builtin_println" = some .println ∧ (labels labelAddress).Nodup ∧
    tidy true labelAddress = .ok labelAddress.tail ∧
    (∃ s', (imageOf ∅ labelAddress).Runs 2 (load ⟨[], [], []⟩).2 (.finished s')) ∧
    ∃ s', (imageOf ∅ labelAddress.tail).Runs 1 (load ⟨[], [], []⟩).2
      (.failed (.unknownLabel "_builtin_println") s') := by
  refine ⟨by decide, by decide, by decide, ?_, ?_⟩
  · exact ⟨_, .step ⟨0, rfl, rfl⟩ rfl (.step ⟨1, rfl, rfl⟩ rfl (.left rfl))⟩
  · exact ⟨_, .failed (f := ⟨.unknownLabel _, _⟩) ⟨0, rfl, rfl⟩ rfl⟩

end X64Backend.Tidy
