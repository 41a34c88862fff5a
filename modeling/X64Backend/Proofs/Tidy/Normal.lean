import X64Backend.Proofs.Tidy.Passes

/-! # Tidy code is in normal form

A round that changes code shortens it, so the rounds come to an end, at code that a round leaves
as it is. There each of the steps finds nothing to do, and what it looks for is not there.
-/

namespace X64Backend.Tidy

open Asm Dataflow List

/-- Positions that control comes to from the first instruction. -/
inductive Reached (code : List Instr) : Nat → Prop
  | first : Reached code 0
  | next {i : Nat} {x : Instr} (h : Reached code i) (hx : code[i]? = some x)
      (hjump : ∀ l, x ≠ .jump .jmp l) (hret : x ≠ .ret) : Reached code (i + 1)
  | target {i p : Nat} {c : Cond} {l : Name} (h : Reached code i)
      (hx : code[i]? = some (.jump c l)) (hp : position? code l = some p) : Reached code p

/-- Jumps go to labels of the code, which are all jumped to and stand apart from each other, no
jump goes to the label behind it, and everything can be reached. -/
structure Normal (code : List Instr) : Prop where
  defined : ∀ l ∈ targets code, l ∈ labels code
  wanted : ∀ l ∈ labels code, l ∈ targets code
  apart {i : Nat} {a b : Name} (h : code[i]? = some (.label a)) : code[i + 1]? ≠ some (.label b)
  moving {i : Nat} {c : Cond} {l : Name} (h : code[i]? = some (.jump c l)) :
    code[i + 1]? ≠ some (.label l)
  reached {i : Nat} (h : i < code.length) : Reached code i

/-- An instruction apart from where it jumps. -/
def aimless : Instr → Instr := retarget fun _ => []

/-- The second code is the first with some instructions left out and jumps sent elsewhere. -/
def Trims (code out : List Instr) : Prop := (out.map aimless).Sublist (code.map aimless)

/-- Labels stand once, and jumps go to them. -/
structure Linked (code : List Instr) : Prop where
  nodup : (labels code).Nodup
  defined : ∀ l ∈ targets code, l ∈ labels code

section

variable {code out : List Instr} {changed : Bool}

theorem Trims.of_sublist (h : out.Sublist code) : Trims code out := h.map aimless

theorem Trims.trans {a b c : List Instr} (hab : Trims a b) (hbc : Trims b c) : Trims a c :=
  List.Sublist.trans hbc hab

theorem Trims.length_le (h : Trims code out) : out.length ≤ code.length := by
  simpa using List.Sublist.length_le h

theorem Trims.kept (m : Marked) (dest : Name → Name) : Trims m.source (m.kept dest) := by
  induction m with
  | nil => exact List.Sublist.refl _
  | cons p rest ih =>
    obtain ⟨x, stays⟩ := p
    cases stays with
    | false => exact List.Sublist.cons (aimless x) ih
    | true =>
      have haim : aimless (retarget dest x) = aimless x := by cases x <;> rfl
      show (aimless (retarget dest x) :: (Marked.kept dest rest).map aimless).Sublist _
      rw [haim]
      exact List.Sublist.cons_cons (aimless x) ih

/-! ## Rows of labels -/

theorem contains_nextLabels_of_table {table : Std.TreeMap Name Name} {a : Name}
    (h : table.contains a = true) : (nextLabels code table).contains a = true := by
  induction code, table using nextLabels.induct with
  | case1 c d rest table ih =>
    rw [nextLabels]
    exact ih (by simp [Std.TreeMap.contains_insert, h])
  | case2 x rest table hrow ih =>
    rw [nextLabels]
    · exact ih h
    · exact hrow
  | case3 table => exact h

/-- A label that stands right before another one is in the table of rows. -/
theorem contains_nextLabels {table : Std.TreeMap Name Name} {i : Nat} {a b : Name}
    (ha : code[i]? = some (.label a)) (hb : code[i + 1]? = some (.label b)) :
    (nextLabels code table).contains a = true := by
  induction code, table using nextLabels.induct generalizing i with
  | case1 c d rest table ih =>
    rw [nextLabels]
    cases i with
    | zero =>
      cases ha
      exact contains_nextLabels_of_table (by simp)
    | succ i => exact ih ha hb
  | case2 x rest table hrow ih =>
    cases i with
    | zero =>
      cases rest with
      | nil => cases hb
      | cons y rest =>
        obtain rfl := Option.some.inj hb
        exact (hrow a b rest (Option.some.inj ha) rfl).elim
    | succ i =>
      rw [nextLabels]
      · exact ih ha hb
      · exact hrow
  | case3 table => cases ha

/-- Of a row of labels all but the last are dropped. -/
theorem length_coalesced (h : (rows code).isEmpty = false) (dest : Name → Name) :
    ((Marked.ofFilter (staysInRow (rows code)) code).kept dest).length < code.length := by
  obtain ⟨a, ha⟩ := Std.TreeMap.isEmpty_eq_false_iff_exists_contains_eq_true.mp h
  obtain ⟨b, hb⟩ := Option.isSome_iff_exists.mp
    (Std.TreeMap.contains_eq_isSome_getElem?.symm.trans ha)
  obtain ⟨i, hi, _⟩ := (getElem?_nextLabels hb).resolve_right (by simp)
  rw [Marked.length_kept, Marked.ofFilter, countP_map]
  refine Nat.lt_of_le_of_ne countP_le_length fun heq => ?_
  have hstays := countP_eq_length.mp heq _ (mem_of_getElem? hi)
  simp [staysInRow, ha] at hstays

theorem Linked.coalesceLabels (h : Linked code) : ∃ out changed,
    coalesceLabels code = .ok (out, changed) ∧ Linked out ∧ Trims code out ∧
      (changed = true → out.length < code.length) := by
  have heq := coalesceLabels_eq h.nodup h.defined
  cases hempty : (rows code).isEmpty with
  | true =>
    rw [hempty] at heq
    exact ⟨code, false, heq, h, .of_sublist (.refl code), (absurd · Bool.false_ne_true)⟩
  | false =>
    rw [hempty] at heq
    have htrims := Trims.kept (Marked.ofFilter (staysInRow (rows code)) code)
      (rowEnd (rows code))
    have hlabels := Marked.labels_kept_sublist
      (Marked.ofFilter (staysInRow (rows code)) code) (rowEnd (rows code))
    rw [Marked.source_ofFilter] at htrims hlabels
    refine ⟨_, true, heq, ⟨h.nodup.sublist hlabels, fun l hl => ?_⟩, htrims,
      fun _ => length_coalesced hempty _⟩
    by_contra hnot
    have hdangles := (dangles_coalesceLabels heq l).mp ⟨hl, hnot⟩
    exact hdangles.2 (h.defined l hdangles.1)

/-! ## What can be reached -/

theorem reached_of_reachable {succs : Array (List Nat)} (h : successors code = .ok succs) {i : Nat}
    (hi : (reachable succs).contains i = true) : Reached code i := by
  refine reachable_induction (successors_lt h) .first (fun i j hi hj => ?_) hi
  have hlt : i < code.length := by
    grind [successors_spec]
  have hx := getElem?_eq_getElem hlt
  rcases successor_cases h hx hj with ⟨rfl, hjump, hret⟩ | ⟨c, l, hjump, hp⟩
  · exact .next hi hx hjump hret
  · exact .target hi (hx.trans (congrArg some hjump)) hp

/-- If no instruction is dropped, all of them can be reached. -/
theorem dropUnreachable_eq_self (h : dropUnreachable code = .ok (out, false)) :
    out = code ∧ ∀ i < code.length, Reached code i := by
  obtain ⟨succs, hsuccs, rfl, hchanged⟩ := dropUnreachable_eq_ok h
  have hlength : (atPositions code (reachable succs)).length = code.length := by
    simpa using hchanged.symm
  refine ⟨(atPositions_sublist code _).eq_of_length hlength, fun i hi => ?_⟩
  rw [atPositions, length_map, ← length_zipIdx (l := code),
    length_filter_eq_length_iff] at hlength
  have hmem : (code[i], i) ∈ code.zipIdx :=
    mem_zipIdx_iff_getElem?.mpr (getElem?_eq_getElem hi)
  exact reached_of_reachable hsuccs (hlength _ hmem)

theorem Linked.dropUnreachable (h : Linked code) : ∃ out changed,
    dropUnreachable code = .ok (out, changed) ∧ Linked out ∧ out.Sublist code := by
  cases hdrop : Tidy.dropUnreachable code with
  | ok p =>
    have hsub := dropUnreachable_sublist hdrop
    exact ⟨p.1, p.2, rfl, ⟨h.nodup.sublist (labels_sublist hsub),
      targets_subset_labels_of_dropUnreachable hdrop⟩, hsub⟩
  | error d =>
    obtain ⟨l, hl, _⟩ := dropUnreachable_eq_error hdrop
    exact absurd (h.defined l hl.1) hl.2

/-! ## Jumps -/

theorem ne_label_of_withoutIdleJumps (h : withoutIdleJumps code = code) {i : Nat} {c : Cond}
    {l : Name} (hi : code[i]? = some (.jump c l)) : code[i + 1]? ≠ some (.label l) := by
  intro hl
  have hsize : (Marked.ofJumps code).length = code.length := by
    rw [← Marked.length_source, Marked.source_ofJumps]
  have hstays : ∀ p ∈ Marked.ofJumps code, p.2 = true := by
    rw [← countP_eq_length (p := Prod.snd), ← Marked.length_kept _ id, Marked.kept_ofJumps, h,
      hsize]
  have hmark := Marked.getElem?_ofJumps code i
  rw [hi, hl, Option.map_some] at hmark
  have hfalse := hstays _ (mem_of_getElem? hmark)
  simp [jumpsTo] at hfalse

/-! ## Rounds -/

/-- A round that changes nothing leaves code in normal form. -/
theorem normal_of_round (h : round code = .ok (out, false)) : out = code ∧ Normal code := by
  have hsettled := (round_spec h).1
  obtain ⟨a, b, coalesced, dropped, hcoalesce, hdrop, rfl, hchanged⟩ := round_eq_ok h
  obtain ⟨⟨rfl, rfl⟩, hlength⟩ : (coalesced = false ∧ dropped = false) ∧
      (withoutIdleLabels (withoutIdleJumps b)).length = b.length := by simpa using hchanged.symm
  obtain ⟨rfl, hrows⟩ := (coalesceLabels_eq_ok hcoalesce).resolve_right fun h =>
    Bool.false_ne_true h.1
  obtain ⟨rfl, hreached⟩ := dropUnreachable_eq_self hdrop
  have hle : b.length ≤ (withoutIdleJumps b).length := by
    rw [← hlength]
    exact length_filter_le _ _
  have hjumps := (withoutIdleJumps_sublist b).eq_of_length_le hle
  have hout : withoutIdleLabels (withoutIdleJumps b) = b := by
    rw [hjumps] at hlength ⊢
    exact filter_sublist.eq_of_length hlength
  rw [hout] at hsettled ⊢
  refine ⟨rfl, fun l hl => (hsettled l).mpr hl, fun l hl => (hsettled l).mp hl, ?_,
    ne_label_of_withoutIdleJumps hjumps, fun hi => hreached _ hi⟩
  intro i x y hx hy
  have hcontains : (nextLabels b ∅).contains x = true := contains_nextLabels hx hy
  rw [Std.TreeMap.contains_of_isEmpty hrows] at hcontains
  cases hcontains

theorem Linked.round (h : Linked code) : ∃ out changed,
    round code = .ok (out, changed) ∧ Linked out ∧ Trims code out ∧
      (changed = true → out.length < code.length) := by
  obtain ⟨a, coalesced, hcoalesce, ha, htrims, hcoalesced⟩ := h.coalesceLabels
  obtain ⟨b, dropped, hdrop, hb, hsub⟩ := ha.dropUnreachable
  have hround : Tidy.round code = .ok (withoutIdleLabels (withoutIdleJumps b),
      coalesced || dropped || (withoutIdleLabels (withoutIdleJumps b)).length != b.length) :=
    bind_eq_ok.mpr ⟨_, hcoalesce, bind_eq_ok.mpr ⟨_, hdrop, rfl⟩⟩
  have hrest : (withoutIdleLabels (withoutIdleJumps b)).Sublist b :=
    filter_sublist.trans (withoutIdleJumps_sublist b)
  refine ⟨_, _, hround, ⟨hb.nodup.sublist (labels_sublist hrest), fun l hl => ?_⟩,
    htrims.trans (.of_sublist (hrest.trans hsub)), fun hchanged => ?_⟩
  · exact ((round_spec hround).1 l).mpr hl
  · have hle := htrims.length_le
    obtain ⟨_, _, _, hdropped⟩ := dropUnreachable_eq_ok hdrop
    simp only [Bool.or_eq_true, bne_iff_ne] at hchanged
    rcases hchanged with (hchanged | hchanged) | hchanged
    · have hlt := hcoalesced hchanged
      have hle' := (hrest.trans hsub).length_le
      omega
    · grind
    · have hle' := hrest.length_le
      have hle'' := hsub.length_le
      omega

/-- Rounds come to code that a round leaves as it is. -/
theorem Linked.rounds (h : Linked code) {fuel : Nat} (hfuel : code.length < fuel) :
    ∃ out, rounds fuel code = .ok out ∧ Tidy.round out = .ok (out, false) ∧ Trims code out := by
  induction fuel generalizing code with
  | zero => exact absurd hfuel (Nat.not_lt_zero _)
  | succ fuel ih =>
    obtain ⟨next, changed, hround, hnext, htrims, hshorter⟩ := h.round
    cases changed with
    | false =>
      obtain ⟨rfl, _⟩ := normal_of_round hround
      exact ⟨next, bind_eq_ok.mpr ⟨_, hround, rfl⟩, hround, htrims⟩
    | true =>
      obtain ⟨out, hrounds, hend, htrims'⟩ := ih hnext (by have := hshorter rfl; omega)
      exact ⟨out, bind_eq_ok.mpr ⟨_, hround, hrounds⟩, hend, htrims.trans htrims'⟩

theorem Linked.dropComments (h : Linked code) : Linked (dropComments code) := by
  refine ⟨h.nodup.sublist (labels_sublist filter_sublist), fun l hl => ?_⟩
  by_contra hnot
  have hdangles := (dangles_dropComments code l).mp ⟨hl, hnot⟩
  exact hdangles.2 (h.defined l hdangles.1)

theorem comment_not_mem_dropComments (text : Bytes) : .comment text ∉ dropComments code :=
  fun h => nomatch (mem_filter.mp h).2

theorem dropComments_eq_self (h : ∀ text, .comment text ∉ code) : dropComments code = code := by
  refine filter_eq_self.mpr fun x hx => ?_
  cases x with
  | comment text => exact absurd hx (h text)
  | _ => rfl

end

/-- Code whose labels stand once and are there for every jump has a tidy form. It is in normal
form, has no comments if they are to go, holds nothing but instructions of the code, in their
order and apart from where they jump, and is its own tidy form. -/
theorem tidy_normal (removeComments : Bool) {code : List Instr} (hnodup : (labels code).Nodup)
    (hdefined : ∀ l ∈ targets code, l ∈ labels code) :
    ∃ out, tidy removeComments code = .ok out ∧ Normal out ∧
      (removeComments = true → ∀ text, .comment text ∉ out) ∧
      (out.map aimless).Sublist (code.map aimless) ∧ tidy removeComments out = .ok out := by
  have hstart : Linked (if removeComments then dropComments code else code) ∧
      Trims code (if removeComments then dropComments code else code) := by
    cases removeComments with
    | false => exact ⟨⟨hnodup, hdefined⟩, .of_sublist (.refl code)⟩
    | true => exact ⟨Linked.dropComments ⟨hnodup, hdefined⟩, .of_sublist List.filter_sublist⟩
  obtain ⟨out, hout, hround, htrims⟩ := hstart.1.rounds (Nat.lt_succ_self _)
  have hcomments : removeComments = true → ∀ text, .comment text ∉ out := by
    rintro rfl text hmem
    refine forall_mem_rounds (P := fun x => x ≠ .comment text) (fun _ _ _ _ h => nomatch h)
      (fun x hx hcomment => ?_) hout _ hmem rfl
    exact comment_not_mem_dropComments text (hcomment ▸ hx)
  have hself : (if removeComments then dropComments out else out) = out := by
    cases removeComments with
    | false => rfl
    | true => exact dropComments_eq_self (hcomments rfl)
  refine ⟨out, hout, (normal_of_round hround).2, hcomments, hstart.2.trans htrims, ?_⟩
  rw [tidy, hself]
  exact bind_eq_ok.mpr ⟨_, hround, rfl⟩

theorem countdown_normal : (labels countdown).Nodup ∧
    ∃ out, tidy true countdown = .ok out ∧ Normal out ∧ (∀ text, .comment text ∉ out) ∧
      (out.map aimless).Sublist (countdown.map aimless) ∧ tidy true out = .ok out := by
  obtain ⟨out, hout, hnormal, hcomments, hsub, hself⟩ :=
    @tidy_normal true countdown (by decide) (by decide)
  exact ⟨by decide, out, hout, hnormal, hcomments rfl, hsub, hself⟩

end X64Backend.Tidy
