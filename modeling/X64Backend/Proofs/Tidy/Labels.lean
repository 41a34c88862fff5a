import X64Backend.Proofs.Dataflow.Reachable

/-! # The labels of tidy code

Tidy code has exactly the labels that it jumps to, and they are labels that the code had
before. So is all else in it, but for where its jumps go.
-/

namespace X64Backend.Tidy

open Asm Dataflow List

variable {code out : List Instr} {changed : Bool}

theorem labels_sublist {a b : List Instr} (h : a.Sublist b) : (labels a).Sublist (labels b) :=
  h.filterMap _

theorem targets_sublist {a b : List Instr} (h : a.Sublist b) :
    (targets a).Sublist (targets b) :=
  h.filterMap _

theorem mem_atPositions {keep : KeySet} {x : Instr} :
    x ∈ atPositions code keep ↔ ∃ i, code[i]? = some x ∧ keep.contains i = true := by
  simp only [atPositions, mem_map, mem_filter, Prod.exists, exists_and_right,
    exists_eq_right, mem_zipIdx_iff_getElem?]

theorem atPositions_sublist (code : List Instr) (keep : KeySet) :
    (atPositions code keep).Sublist code := by
  conv_rhs => rw [← zipIdx_map_fst 0 code]
  exact filter_sublist.map Prod.fst

variable (h : dropUnreachable code = .ok (out, changed))

include h

theorem dropUnreachable_eq_ok :
    ∃ succs, successors code = .ok succs ∧ out = atPositions code (reachable succs) ∧
      changed = (out.length != code.length) := by
  unfold dropUnreachable at h
  split at h
  next hempty =>
    cases pure_eq_ok.mp h
    rw [List.isEmpty_iff.mp hempty]
    exact ⟨#[], rfl, rfl, rfl⟩
  next =>
    grind [bind_eq_ok, pure_eq_ok]

/-- Of unreachable code nothing is kept, and of the rest every label that is jumped to. -/
theorem targets_subset_labels_of_dropUnreachable :
    ∀ l ∈ targets out, l ∈ labels out := by
  obtain ⟨succs, hsuccs, rfl, _⟩ := dropUnreachable_eq_ok h
  have hclosed := (reachable_spec (successors_lt hsuccs)).2
  intro l hl
  obtain ⟨cond, hjump⟩ := mem_targets.mp hl
  obtain ⟨i, hi, hreach⟩ := mem_atPositions.mp hjump
  obtain ⟨t, ht, hmem⟩ := target_mem_successors hsuccs hi
  rw [mem_labels, mem_atPositions]
  exact ⟨t, getElem?_of_position? ht, hclosed i t hreach hmem⟩

theorem dropUnreachable_sublist :
    out.Sublist code := by
  obtain ⟨succs, _, rfl, _⟩ := dropUnreachable_eq_ok h
  exact atPositions_sublist code _

omit h

theorem labels_withoutIdleJumps (code : List Instr) :
    labels (withoutIdleJumps code) = labels code := by
  induction code with
  | nil => rfl
  | cons x rest ih =>
    unfold withoutIdleJumps
    split
    next hidle =>
      cases x <;> simp [jumpsTo] at hidle
      rw [ih, labels_cons]
      rfl
    next => rw [labels_cons, labels_cons, ih]

theorem withoutIdleJumps_sublist (code : List Instr) : (withoutIdleJumps code).Sublist code := by
  induction code with
  | nil => exact List.Sublist.refl _
  | cons x rest ih =>
    unfold withoutIdleJumps
    split
    · exact ih.cons x
    · exact ih.cons_cons x

theorem targets_withoutIdleLabels (code : List Instr) :
    targets (withoutIdleLabels code) = targets code := by
  unfold withoutIdleLabels
  generalize code.filterMap target? = kept
  induction code with
  | nil => rfl
  | cons x rest ih =>
    rw [filter_cons, targets_cons, ← ih]
    cases x with
    | label l =>
      dsimp only
      split <;> simp [target?]
    | _ => rfl

theorem mem_labels_withoutIdleLabels {l : Name} :
    l ∈ labels (withoutIdleLabels code) ↔ l ∈ labels code ∧ l ∈ targets code := by
  rw [mem_labels, mem_labels, withoutIdleLabels, mem_filter]
  simp [targets]

/-- The table of rows of labels that code has. -/
abbrev rows (code : List Instr) : Std.TreeMap Name Name := nextLabels code ∅

/-- The table of rows has for a label one that stands right behind it. -/
theorem getElem?_nextLabels {table : Std.TreeMap Name Name} {a b : Name}
    (h : (nextLabels code table)[a]? = some b) :
    (∃ i : Nat, code[i]? = some (.label a) ∧ code[i + 1]? = some (.label b)) ∨
      table[a]? = some b := by
  induction code, table using nextLabels.induct with
  | case1 c d rest table ih =>
    rw [nextLabels] at h
    rcases ih h with ⟨i, hi⟩ | htable
    · exact .inl ⟨i + 1, hi⟩
    · rw [Std.TreeMap.getElem?_insert] at htable
      split at htable
      next hc =>
        rw [Std.LawfulEqCmp.compare_eq_iff_eq] at hc
        cases htable
        exact .inl ⟨0, by rw [hc]; rfl, rfl⟩
      next => exact .inr htable
  | case2 x rest table hrow ih =>
    rw [nextLabels] at h
    · rcases ih h with ⟨i, hi⟩ | htable
      · exact .inl ⟨i + 1, hi⟩
      · exact .inr htable
    · exact hrow
  | case3 table => exact .inr h

/-- Code without rows of labels stays as it is; in other code each instruction is changed alone. -/
theorem coalesceLabels_eq_ok (h : coalesceLabels code = .ok (out, changed)) :
    (out = code ∧ (rows code).isEmpty = true) ∨ changed = true ∧ ∃ kept : List (Option Instr),
      List.Forall₂ (fun x o => coalesceInstr (rows code) x = .ok o) code kept ∧
      out = kept.filterMap id := by
  unfold coalesceLabels at h
  dsimp only at h
  split at h
  next hempty =>
    cases pure_eq_ok.mp h
    exact .inl ⟨rfl, hempty⟩
  next =>
    grind [bind_eq_ok, pure_eq_ok, mapM_eq_ok]

theorem labels_coalesceLabels_subset (h : coalesceLabels code = .ok (out, changed)) :
    ∀ l ∈ labels out, l ∈ labels code := by
  intro l hl
  rcases coalesceLabels_eq_ok h with ⟨rfl, _⟩ | ⟨_, kept, hkept, rfl⟩
  · exact hl
  · rw [mem_labels, mem_filterMap] at hl
    obtain ⟨_, hmem, rfl⟩ := hl
    obtain ⟨x, hx, hstep⟩ := exists_mem_of_forall₂ hkept hmem
    rw [mem_labels]
    cases x <;> simp [coalesceInstr] at hstep
    case label =>
      rw [← hstep.2]
      exact hx
    case jump =>
      obtain ⟨_, _, hstep⟩ := bind_eq_ok.mp hstep
      cases hstep

/-- Code that jumps to all of its labels and to no others. -/
def Settled (code : List Instr) : Prop := ∀ l, l ∈ labels code ↔ l ∈ targets code

theorem round_eq_ok (h : round code = .ok (out, changed)) : ∃ a b coalesced dropped,
    coalesceLabels code = .ok (a, coalesced) ∧ dropUnreachable a = .ok (b, dropped) ∧
    out = withoutIdleLabels (withoutIdleJumps b) ∧
    changed = (coalesced || dropped || out.length != b.length) := by
  obtain ⟨⟨a, coalesced⟩, hcoalesce, h⟩ := bind_eq_ok.mp h
  obtain ⟨⟨b, dropped⟩, hdrop, h⟩ := bind_eq_ok.mp h
  cases pure_eq_ok.mp h
  exact ⟨a, b, coalesced, dropped, hcoalesce, hdrop, rfl, rfl⟩

/-- What a round keeps, rounds keep. -/
theorem rounds_keep {M : List Instr → Prop} {fuel : Nat}
    (hround : ∀ {code out changed}, round code = .ok (out, changed) → M code → M out)
    (h : rounds fuel code = .ok out) (hcode : M code) : M out := by
  induction fuel generalizing code with
  | zero =>
    cases h
    exact hcode
  | succ fuel ih =>
    obtain ⟨⟨next, changed⟩, hnext, h⟩ := bind_eq_ok.mp h
    dsimp only at h
    split at h
    · exact ih h (hround hnext hcode)
    · cases pure_eq_ok.mp h
      exact hround hnext hcode

/-- A round leaves settled code with labels that were there before. -/
theorem round_spec (h : round code = .ok (out, changed)) :
    Settled out ∧ ∀ l ∈ labels out, l ∈ labels code := by
  obtain ⟨a, b, _, _, hcoalesce, hdrop, rfl, _⟩ := round_eq_ok h
  have htargets := targets_subset_labels_of_dropUnreachable hdrop
  constructor
  · intro l
    rw [mem_labels_withoutIdleLabels, targets_withoutIdleLabels, labels_withoutIdleJumps]
    constructor
    · exact And.right
    · intro hl
      exact ⟨htargets l ((targets_sublist (withoutIdleJumps_sublist b)).mem hl), hl⟩
  · intro l hl
    rw [mem_labels_withoutIdleLabels, labels_withoutIdleJumps] at hl
    exact labels_coalesceLabels_subset hcoalesce l
      ((labels_sublist (dropUnreachable_sublist hdrop)).mem hl.1)

theorem rounds_spec {fuel : Nat} (h : rounds fuel code = .ok out) :
    (0 < fuel ∨ Settled code → Settled out) ∧ ∀ l ∈ labels out, l ∈ labels code := by
  induction fuel generalizing code with
  | zero =>
    cases h
    exact ⟨fun h => h.resolve_left (Nat.lt_irrefl 0), fun _ hl => hl⟩
  | succ fuel ih =>
    obtain ⟨⟨next, changed⟩, hround, h⟩ := bind_eq_ok.mp h
    obtain ⟨hsettled, hlabels⟩ := round_spec hround
    dsimp only at h
    split at h
    · grind
    · cases pure_eq_ok.mp h
      exact ⟨fun _ => hsettled, hlabels⟩

/-- Tidy code is settled, and its labels were there before. -/
theorem tidy_spec {bare : Bool} (h : tidy bare code = .ok out) :
    Settled out ∧ ∀ l ∈ labels out, l ∈ labels code := by
  obtain ⟨hsettled, hlabels⟩ := rounds_spec h
  refine ⟨hsettled (.inl (Nat.succ_pos _)), ?_⟩
  intro l hl
  have hmem := hlabels l hl
  split at hmem
  · exact (labels_sublist filter_sublist).mem hmem
  · exact hmem

section

variable {P : Instr → Prop} (hP : ∀ c l l', P (.jump c l) → P (.jump c l'))
  {code out : List Instr}

include hP

theorem forall_mem_coalesceLabels {changed : Bool} (hcode : ∀ x ∈ code, P x)
    (h : coalesceLabels code = .ok (out, changed)) : ∀ x ∈ out, P x := by
  rcases coalesceLabels_eq_ok h with ⟨rfl, _⟩ | ⟨_, kept, hkept, rfl⟩
  · exact hcode
  · intro x hx
    obtain ⟨y, hy, rfl⟩ := mem_filterMap.mp hx
    obtain ⟨z, hz, hstep⟩ := exists_mem_of_forall₂ hkept hy
    unfold coalesceInstr at hstep
    split at hstep
    next l =>
      grind
    next c l =>
      grind [bind_eq_ok, pure_eq_ok]
    next =>
      cases hstep
      exact hcode _ hz

theorem forall_mem_rounds {fuel : Nat} (hcode : ∀ x ∈ code, P x)
    (h : rounds fuel code = .ok out) : ∀ x ∈ out, P x := by
  refine rounds_keep (M := fun code => ∀ x ∈ code, P x) (fun hround hcode => ?_) h hcode
  obtain ⟨a, b, _, _, hcoalesce, hdrop, rfl, _⟩ := round_eq_ok hround
  have hsub : (withoutIdleLabels (withoutIdleJumps b)).Sublist a :=
    filter_sublist.trans ((withoutIdleJumps_sublist b).trans (dropUnreachable_sublist hdrop))
  exact fun x hx => forall_mem_coalesceLabels hP hcode hcoalesce x (hsub.mem hx)

/-- What holds of all instructions, wherever they jump, holds of tidy code. -/
theorem forall_mem_tidy {bare : Bool} (hcode : ∀ x ∈ code, P x)
    (h : tidy bare code = .ok out) : ∀ x ∈ out, P x := by
  refine forall_mem_rounds hP ?_ h
  split
  · exact fun x hx => hcode x (mem_filter.mp hx).1
  · exact hcode

end

/-! ## When there is no tidy code -/

/-- A label that code jumps to and does not have. -/
def Dangles (code : List Instr) (l : Name) : Prop := l ∈ targets code ∧ l ∉ labels code

section

variable {code out : List Instr} {changed : Bool} {d : Defect}
variable {fuel : Nat}

theorem mem_labels_of_rows {a b : Name} (h : (rows code)[a]? = some b) :
    a ∈ labels code ∧ b ∈ labels code := by
  rcases getElem?_nextLabels h with ⟨i, ha, hb⟩ | h
  · exact ⟨mem_labels.mpr (mem_of_getElem? ha), mem_labels.mpr (mem_of_getElem? hb)⟩
  · simp at h

theorem lastLabel_eq_error {next : Std.TreeMap Name Name} {l : Name}
    (h : lastLabel next fuel l = .error d) : ∃ c, d = .circularLabels c := by
  induction fuel generalizing l with
  | zero =>
    cases h
    exact ⟨l, rfl⟩
  | succ fuel ih =>
    unfold lastLabel at h
    split at h
    · exact ih h
    · cases h

/-- The last of a row stands in no row before another, and it is where the row began or stands
behind another. -/
theorem lastLabel_eq_ok {next : Std.TreeMap Name Name} {l last : Name}
    (h : lastLabel next fuel l = .ok last) :
    next[last]? = none ∧ (last = l ∨ ∃ k : Name, next[k]? = some last) := by
  induction fuel generalizing l with
  | zero => cases h
  | succ fuel ih =>
    grind [lastLabel]

/-- Making rows of labels one neither adds nor takes away a label that is missed. -/
theorem dangles_coalesceLabels (h : coalesceLabels code = .ok (out, changed)) (l : Name) :
    Dangles out l ↔ Dangles code l := by
  have hsubset := labels_coalesceLabels_subset h l
  rcases coalesceLabels_eq_ok h with ⟨rfl, _⟩ | ⟨_, kept, hforall, rfl⟩
  · rfl
  · constructor
    · rintro ⟨htarget, hlabel⟩
      obtain ⟨c, hjump⟩ := mem_targets.mp htarget
      obtain ⟨_, hmem, rfl⟩ := mem_filterMap.mp hjump
      obtain ⟨x, hx, hstep⟩ := exists_mem_of_forall₂ hforall hmem
      cases x with
      | jump c' t =>
        obtain ⟨last, hlast, hstep⟩ := bind_eq_ok.mp hstep
        cases pure_eq_ok.mp hstep
        obtain ⟨hnone, hrow⟩ := lastLabel_eq_ok hlast
        -- a label that ends a row stays, so one that is missed was in no row
        have hmissed : l ∉ labels code := by
          intro hl
          refine hlabel (mem_labels.mpr (mem_filterMap.mpr ⟨some (.label l), ?_, rfl⟩))
          obtain ⟨i, hi⟩ := mem_iff_getElem?.mp (mem_labels.mp hl)
          obtain ⟨o, ho, hstep⟩ := getElem?_of_forall₂ hforall hi
          have hcontains : (rows code).contains l = false := by
            rw [Std.TreeMap.contains_eq_isSome_getElem?, hnone]
            rfl
          simp only [coalesceInstr, hcontains, Except.ok.injEq] at hstep
          rw [← hstep] at ho
          exact mem_of_getElem? ho
        refine ⟨?_, hmissed⟩
        rcases hrow with rfl | ⟨k, hk⟩
        · exact mem_targets.mpr ⟨_, hx⟩
        · exact absurd (mem_labels_of_rows hk).2 hmissed
      | label a =>
        have hstep := Except.ok.inj hstep
        split at hstep <;> cases hstep
      | _ => cases hstep
    · rintro ⟨htarget, hlabel⟩
      refine ⟨?_, fun hl => hlabel (hsubset hl)⟩
      obtain ⟨c, hjump⟩ := mem_targets.mp htarget
      obtain ⟨i, hi⟩ := mem_iff_getElem?.mp hjump
      obtain ⟨o, ho, hstep⟩ := getElem?_of_forall₂ hforall hi
      obtain ⟨last, hlast, hstep⟩ := bind_eq_ok.mp hstep
      cases pure_eq_ok.mp hstep
      have hnone : (rows code)[l]? = none := by
        cases hrow : (rows code)[l]? with
        | none => rfl
        | some b => exact absurd (mem_labels_of_rows hrow).1 hlabel
      simp only [lastLabel, hnone] at hlast
      obtain rfl := Except.ok.inj hlast
      exact mem_targets.mpr ⟨c, mem_filterMap.mpr ⟨_, mem_of_getElem? ho, rfl⟩⟩

theorem coalesceLabels_eq_error (h : coalesceLabels code = .error d) :
    ∃ c, d = .circularLabels c := by
  unfold coalesceLabels at h
  dsimp only at h
  split at h
  next => cases h
  next =>
    rcases bind_eq_error.mp h with h | ⟨_, _, h⟩
    · obtain ⟨x, _, h⟩ := exists_of_mapM_eq_error h
      cases x with
      | jump c t =>
        rcases bind_eq_error.mp h with h | ⟨_, _, h⟩
        · exact lastLabel_eq_error h
        · cases h
      | _ => cases h
    · cases h

theorem dropUnreachable_eq_error (h : dropUnreachable code = .error d) :
    ∃ l, Dangles code l ∧ d = .undefinedLabel l := by
  unfold dropUnreachable at h
  split at h
  next => cases h
  next =>
    rcases bind_eq_error.mp h with h | ⟨_, _, h⟩
    · obtain ⟨l, htarget, hlabel, rfl⟩ := successors_eq_error h
      exact ⟨l, ⟨htarget, hlabel⟩, rfl⟩
    · cases h

theorem not_dangles_of_dropUnreachable (h : dropUnreachable code = .ok (out, changed)) (l : Name) :
    ¬ Dangles code l := by
  rintro ⟨htarget, hlabel⟩
  obtain ⟨c, hjump⟩ := mem_targets.mp htarget
  obtain ⟨succs, hsuccs, _⟩ := dropUnreachable_eq_ok h
  obtain ⟨i, hi⟩ := mem_iff_getElem?.mp hjump
  obtain ⟨t, ht, _⟩ := target_mem_successors hsuccs hi
  exact hlabel (mem_labels.mpr (mem_of_getElem? (getElem?_of_position? ht)))

theorem round_eq_error (h : round code = .error d) :
    (∃ c, d = .circularLabels c) ∨ ∃ l, Dangles code l ∧ d = .undefinedLabel l := by
  rcases bind_eq_error.mp h with h | ⟨⟨a, coalesced⟩, hcoalesce, h⟩
  · exact .inl (coalesceLabels_eq_error h)
  · rcases bind_eq_error.mp h with h | ⟨_, _, h⟩
    · grind [dropUnreachable_eq_error, dangles_coalesceLabels]
    · cases h

theorem not_dangles_of_round (h : round code = .ok (out, changed)) (l : Name) :
    ¬ Dangles code l := by
  obtain ⟨_, _, _, _, hcoalesce, hdrop, _⟩ := round_eq_ok h
  rw [← dangles_coalesceLabels hcoalesce]
  exact not_dangles_of_dropUnreachable hdrop l

theorem rounds_eq_error (h : rounds fuel code = .error d) :
    (∃ c, d = .circularLabels c) ∨ ∃ l, Dangles code l ∧ d = .undefinedLabel l := by
  induction fuel generalizing code with
  | zero => cases h
  | succ fuel ih =>
    rcases bind_eq_error.mp h with h | ⟨⟨next, changed⟩, hround, h⟩
    · exact round_eq_error h
    · dsimp only at h
      split at h
      · rcases ih h with h | ⟨l, ⟨htarget, hlabel⟩, _⟩
        · exact .inl h
        · exact absurd (((round_spec hround).1 l).mpr htarget) hlabel
      · cases h

theorem dangles_dropComments (code : List Instr) (l : Name) :
    Dangles (dropComments code) l ↔ Dangles code l := by
  simp only [Dangles, mem_targets, mem_labels, dropComments, mem_filter, and_true]

/-- Code cannot be tidied only if rows of its labels go in a circle or it misses a label. -/
theorem tidy_eq_error {bare : Bool} (h : tidy bare code = .error d) :
    (∃ c, d = .circularLabels c) ∨ ∃ l, Dangles code l ∧ d = .undefinedLabel l := by
  rcases rounds_eq_error h with h | ⟨l, hl, hd⟩
  · exact .inl h
  · grind [dangles_dropComments]

/-- Code that can be tidied misses no label. -/
theorem not_dangles_of_tidy {bare : Bool} (h : tidy bare code = .ok out)
    (l : Name) : ¬ Dangles code l := by
  obtain ⟨⟨next, changed⟩, hround, _⟩ := bind_eq_ok.mp h
  have hnot := not_dangles_of_round hround l
  split at hnot
  · rwa [dangles_dropComments] at hnot
  · exact hnot

end

end X64Backend.Tidy
