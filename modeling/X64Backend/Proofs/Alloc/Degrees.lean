import X64Backend.Proofs.Alloc.Separation

/-! # Degrees are exact

At every stage the degree that is kept for a register in the graph is the number of its
neighbours there, and the lists are right: the crowded registers are those with as many
neighbours as the palette has colours, or more. Within a stage a register that left may still
be counted by some that it leaves behind. These are owed a count less, and get it one by one.
-/

namespace X64Backend

namespace Alloc

open Asm Dataflow List

namespace Worklist

/-- The neighbours of a register in the graph. -/
def around (w : Worklist) (n : Nat) : Finset Nat := (w.neighbours n).keys

theorem mem_around {w : Worklist} {n t : Nat} (hn : Vars.isMachine n = false) :
    t ∈ w.around n ↔ t ∈ w.edges.getD n .empty ∧ t ∉ w.selected ∧ t ∉ w.merged := by
  simp only [around, neighbours, hn, KeySet.mem_keys, KeySet.mem_diff, and_assoc,
    Bool.false_eq_true, ↓reduceIte]

theorem around_congr {w w' : Worklist} (hedges : w'.edges = w.edges)
    (hselected : w'.selected = w.selected) (hmerged : w'.merged = w.merged) (n : Nat) :
    w'.around n = w.around n := by
  rw [around, around, neighbours, neighbours, hedges, hselected, hmerged]

/-- Degrees count neighbours and what is owed, and say on which list a register is. Of the
loose registers the list is not known to be right. -/
structure Measured (w : Worklist) (owed : List Nat) (loose : Nat → Prop) : Prop where
  size : w.degree.size = w.edges.size
  plain {n : Nat} (h : w.Listed n) : Vars.isMachine n = false
  degree {n : Nat} (h : w.Listed n) : w.degree.getD n 0 = (w.around n).card + owed.count n
  crowded {n : Nat} (h : n ∈ w.spill) : paletteSize ≤ w.degree.getD n 0
  eased {n : Nat} (h : n ∈ w.simplify ∨ n ∈ w.freeze) (hn : ¬ loose n) :
    w.degree.getD n 0 < paletteSize

/-- All degrees are exact. -/
abbrev Exact (w : Worklist) : Prop := w.Measured [] fun _ => False

section

variable {g : Interference} {w w' : Worklist} {n t u v : Nat} {owed : List Nat}
  {loose loose' : Nat → Prop}

theorem Sound.listed_of_mem_around (hw : w.Sound g) (hn : Vars.isMachine n = false)
    (ht : t ∈ w.around n) : w.Listed t ∨ Vars.isMachine t = true := by
  obtain ⟨hedge, hselected, hmerged⟩ := (mem_around hn).mp ht
  cases hmachine : Vars.isMachine t with
  | true => exact .inr rfl
  | false =>
    have hlisted := hw.listed_or_selected (hw.lt_of_mem_edges hedge).2 hmerged hmachine
    exact .inl (hlisted.resolve_right hselected)

/-! ## Counting one less -/

theorem foldl_enableCopies (w : Worklist) (ns : List Nat) :
    ∃ ready active, ns.foldl enableCopies w = { w with ready, active } := by
  induction ns generalizing w with
  | nil => exact ⟨_, _, rfl⟩
  | cons n ns ih =>
    obtain ⟨ready, active, heq⟩ := ih (w.enableCopies n)
    exact ⟨ready, active, heq⟩

/-- A register that is not crowded does not go where the crowded are. -/
theorem place_eased (hn : w.isCrowded n = false) :
    (w.place n).degree = w.degree ∧ (∀ m, m ∈ (w.place n).spill → m ∈ w.spill) ∧
      (∀ m, m ∈ (w.place n).simplify → m ∈ w.simplify ∨ m = n) ∧
      ∀ m, m ∈ (w.place n).freeze → m ∈ w.freeze ∨ m = n := by
  grind [place]

/-- What counting one neighbour less does to the lists: a register with just as many as the
palette has colours is crowded no more. -/
theorem lowerDegree_spec (hn : Vars.isMachine n = false) :
    (w.lowerDegree n).degree = w.degree.setIfInBounds n (w.degree.getD n 0 - 1) ∧
      (∀ m, m ∈ (w.lowerDegree n).spill →
        m ∈ w.spill ∧ (m = n → w.degree.getD n 0 ≠ paletteSize)) ∧
      (∀ m, m ∈ (w.lowerDegree n).simplify →
        m ∈ w.simplify ∨ m = n ∧ w.degree.getD n 0 = paletteSize) ∧
      ∀ m, m ∈ (w.lowerDegree n).freeze →
        m ∈ w.freeze ∨ m = n ∧ w.degree.getD n 0 = paletteSize := by
  unfold lowerDegree
  rw [hn, if_neg Bool.false_ne_true]
  dsimp only
  generalize hd : w.degree.getD n 0 = d
  by_cases hfull : d = paletteSize
  · rw [if_neg (fun hne => hne hfull)]
    have hdegree : (w.degree.setIfInBounds n (d - 1)).getD n 0 < paletteSize := by
      have hlt : n < w.degree.size := by
        by_contra hge
        rw [Array.getD, dif_neg hge] at hd
        exact absurd (hd.trans hfull) (by decide)
      have hpos : 0 < paletteSize := by decide
      rw [getD_setIfInBounds _ _ hlt, if_pos rfl]
      omega
    generalize w.degree.setIfInBounds n (d - 1) = degree at hdegree ⊢
    obtain ⟨ready, active, heq⟩ : ∃ ready active,
        (neighbours { w with degree } n).toList.foldl enableCopies
          (enableCopies { w with degree } n) = { w with degree, ready, active } :=
      foldl_enableCopies _ _
    rw [heq]
    split
    next hspill =>
      obtain ⟨hdegree', hspill', hsimplify, hfreeze⟩ := @place_eased
        { w with degree, ready, active, spill := w.spill.erase n } n (by
          simp only [isCrowded, hn, Bool.false_or, decide_eq_false_iff_not]
          omega)
      refine ⟨hdegree', fun m hm => ?_, fun m hm => (hsimplify m hm).imp_right (⟨·, hfull⟩),
        fun m hm => (hfreeze m hm).imp_right (⟨·, hfull⟩)⟩
      obtain ⟨hm, hne⟩ := KeySet.mem_erase.mp (hspill' m hm)
      exact ⟨hm, fun heq => absurd heq hne⟩
    next hspill =>
      refine ⟨rfl, fun m hm => ⟨hm, ?_⟩, fun _ => .inl, fun _ => .inl⟩
      rintro rfl
      exact absurd hm hspill
  · grind

theorem mem_simplify_lowerDegree (h : t ∈ (w.lowerDegree n).simplify) : t ∈ w.simplify ∨ t = n := by
  cases hn : Vars.isMachine n with
  | true =>
    rw [lowerDegree, if_pos hn] at h
    exact .inl h
  | false => exact ((lowerDegree_spec hn).2.2.1 t h).imp_right And.left

/-- Once a register has its count less nothing is owed to it. It may be loose if it has hardly
too many neighbours for its list. -/
theorem Measured.lowerDegree (h : w.Measured (t :: owed) loose')
    (hloose : ∀ m, m ∈ w.simplify ∨ m ∈ w.freeze → loose' m →
      loose m ∨ m = t ∧ w.degree.getD t 0 ≤ paletteSize) :
    (w.lowerDegree t).Measured owed loose := by
  have hquiet := (tame_lowerDegree w t).toQuiet
  have haround := around_congr (edges_lowerDegree w t) hquiet.selected hquiet.merged
  have hplain : ∀ {m}, (w.lowerDegree t).Listed m → Vars.isMachine m = false := fun hm =>
    h.plain ((hquiet.listed _).mp hm)
  cases ht : Vars.isMachine t with
  | true =>
    -- Nothing is counted for the registers of the machine, and none is listed.
    have heq : w.lowerDegree t = w := by
      rw [Worklist.lowerDegree, if_pos ht]
    have hne : ∀ {m}, w.Listed m → m ≠ t := by
      rintro m hm rfl
      rw [h.plain hm] at ht
      cases ht
    rw [heq]
    refine ⟨h.size, h.plain, fun hm => ?_, h.crowded, fun hm hnot => h.eased hm fun hm' => ?_⟩
    · rw [h.degree hm, count_cons_of_ne (hne hm).symm]
    · rcases hloose _ hm hm' with hm' | ⟨hm', _⟩
      · exact hnot hm'
      · exact hne (hm.elim .inl fun hm => .inr (.inl hm)) hm'
  | false =>
    obtain ⟨hdegree, hspill, hsimplify, hfreeze⟩ := lowerDegree_spec (w := w) ht
    have hget : ∀ {m}, w.Listed m → (w.lowerDegree t).degree.getD m 0 =
        if t = m then w.degree.getD t 0 - 1 else w.degree.getD m 0 := by
      intro m hm
      rw [hdegree]
      by_cases hlt : t < w.degree.size
      · exact getD_setIfInBounds _ m hlt
      · grind
    refine ⟨?_, hplain, fun hm => ?_, fun {m} hm => ?_, fun {m} hm hnot => ?_⟩
    · rw [hdegree, Array.size_setIfInBounds, edges_lowerDegree, h.size]
    · have hm := (hquiet.listed _).mp hm
      rw [haround, hget hm]
      split
      next heq =>
        subst heq
        rw [h.degree hm, count_cons_self]
        omega
      next hne => rw [h.degree hm, count_cons_of_ne hne]
    · obtain ⟨hm, hne⟩ := hspill m hm
      have hle := h.crowded hm
      rw [hget (.inr (.inr hm))]
      split
      next heq =>
        subst heq
        have := hne rfl
        omega
      next => exact hle
    · have hlisted : w.Listed m := (hquiet.listed m).mp (hm.elim .inl fun hm => .inr (.inl hm))
      have hpos : 0 < paletteSize := by decide
      -- It was eased before, or has just come to have few enough neighbours.
      have heased : (m ∈ w.simplify ∨ m ∈ w.freeze) ∨ m = t ∧ w.degree.getD t 0 = paletteSize :=
        hm.elim (fun hm => (hsimplify m hm).imp_left .inl) fun hm => (hfreeze m hm).imp_left .inr
      rw [hget hlisted]
      rcases heased with hm | ⟨rfl, hd⟩
      · split
        next heq =>
          subst heq
          by_cases hloose' : loose' t
          · grind
          · have := h.eased hm hloose'
            omega
        next hne =>
          grind [h.eased]
      · rw [if_pos rfl]
        omega

theorem Measured.foldl_lowerDegree {ts : List Nat} (h : w.Measured ts loose) :
    (ts.foldl Worklist.lowerDegree w).Measured [] loose := by
  induction ts generalizing w with
  | nil => exact h
  | cons t ts ih => exact ih (h.lowerDegree fun _ _ => .inl)

/-! ## Leaving the graph -/

/-- When a register leaves the graph its neighbours are owed a count less. -/
theorem Measured.leaves (hw : w.Sound g) (h : w.Measured [] loose) (hn : w.Listed n)
    (hloose : ∀ m, loose m → loose' m)
    (hedges : w'.edges = w.edges) (hdegree : w'.degree = w.degree)
    (hgone : ∀ m, m ∈ w'.selected ∨ m ∈ w'.merged ↔ (m ∈ w.selected ∨ m ∈ w.merged) ∨ m = n)
    (hspill : ∀ m, m ∈ w'.spill → m ∈ w.spill ∧ m ≠ n)
    (hsimplify : ∀ m, m ∈ w'.simplify → m ∈ w.simplify ∧ m ≠ n)
    (hfreeze : ∀ m, m ∈ w'.freeze → m ∈ w.freeze ∧ m ≠ n) :
    w'.Measured (w'.neighbours n).toList loose' := by
  have hlisted : ∀ {m}, w'.Listed m → w.Listed m ∧ m ≠ n := by
    grind [Listed]
  have hstays : ∀ m, m ∉ w'.selected ∧ m ∉ w'.merged ↔
      (m ∉ w.selected ∧ m ∉ w.merged) ∧ m ≠ n := by
    intro m
    rw [← not_or, hgone, not_or, not_or]
  refine ⟨by rw [hdegree, hedges, h.size], fun hm => h.plain (hlisted hm).1, fun {m} hm => ?_,
    fun hm => hdegree ▸ h.crowded (hspill _ hm).1, fun hm hnot => hdegree ▸ h.eased (hm.imp
      (fun hm => (hsimplify _ hm).1) fun hm => (hfreeze _ hm).1) fun hm => hnot (hloose _ hm)⟩
  obtain ⟨hm, hne⟩ := hlisted hm
  have hplain := h.plain hm
  have haround : w'.around m = (w.around m).erase n := by
    ext t
    rw [Finset.mem_erase, mem_around hplain, mem_around hplain, hedges, hstays]
    tauto
  -- The register is around another just where that one is around it.
  have hback : m ∈ (w'.neighbours n).toList ↔ n ∈ w.around m := by
    rw [KeySet.mem_toList, KeySet.contains_iff_mem, ← KeySet.mem_keys, ← around,
      mem_around (h.plain hn), mem_around hplain, hedges, hstays]
    constructor
    · rintro ⟨hedge, _⟩
      exact ⟨(hw.bothWays n m hedge).2, hw.not_selected hn, hw.not_merged (.inl hn)⟩
    · rintro ⟨hedge, _⟩
      exact ⟨(hw.bothWays m n hedge).2, ⟨hw.not_selected hm, hw.not_merged (.inl hm)⟩, hne⟩
  have hcount : (w'.neighbours n).toList.count m = if n ∈ w.around m then 1 else 0 := by
    rw [(KeySet.nodup_toList _).count]
    simp only [hback]
  rw [hdegree, h.degree hm, haround, hcount, count_nil]
  split
  next hmem =>
    have hpos := Finset.card_pos.mpr ⟨n, hmem⟩
    rw [Finset.card_erase_of_mem hmem]
    omega
  next hmem => rw [Finset.erase_eq_of_notMem hmem]

theorem Measured.select (hw : w.Sound g) (h : w.Measured [] loose) (hn : n ∈ w.simplify) :
    (w.select n).Measured [] loose := by
  have happart := (hw.apart n).1 hn
  refine Measured.foldl_lowerDegree (w := w.pushed n)
    (h.leaves hw (.inl hn) (fun _ => id) rfl rfl ?_ ?_ ?_ ?_)
  all_goals grind [pushed]

/-! ## Merging -/

theorem raiseDegree_spec (hn : n < w.degree.size) :
    ∃ degree, w.raiseDegree n = { w with degree } ∧ degree.size = w.degree.size ∧
      ∀ m, Vars.isMachine m = false →
        degree.getD m 0 = w.degree.getD m 0 + if n = m then 1 else 0 := by
  unfold raiseDegree
  split
  next hmachine =>
    grind
  next =>
    refine ⟨_, rfl, Array.size_modify, fun m _ => ?_⟩
    rw [getD_modify]
    by_cases heq : n = m
    · subst heq
      rw [if_pos ⟨rfl, hn⟩, if_pos rfl]
    · rw [if_neg (fun h => heq h.1), if_neg heq, Nat.add_zero]

theorem join_spec (ht : t < w.degree.size) (hu : u < w.degree.size) (hne : t ≠ u)
    (hnew : w.interfere t u = false) :
    ∃ degree, w.join t u = { w with edges := joined w.edges t u, degree } ∧
      degree.size = w.degree.size ∧ ∀ m, Vars.isMachine m = false → degree.getD m 0 =
        w.degree.getD m 0 + (if t = m then 1 else 0) + if u = m then 1 else 0 := by
  rw [join, if_neg (by simp [hne, hnew])]
  obtain ⟨degree, heq, hsize, hdegree⟩ := raiseDegree_spec
    (w := { w with edges := joined w.edges t u }) ht
  rw [heq]
  obtain ⟨degree', heq', hsize', hdegree'⟩ := raiseDegree_spec
    (w := { w with edges := joined w.edges t u, degree }) (n := u) (hsize ▸ hu)
  refine ⟨degree', heq', hsize'.trans hsize, fun m hm => ?_⟩
  rw [hdegree' m hm]
  exact congrArg (· + _) (hdegree m hm)

/-- Registers in the graph that are joined are around each other. -/
theorem card_around_joined (ht : t < w.edges.size) (hu : u < w.edges.size) (hne : t ≠ u)
    (hnew : w.interfere t u = false) (hways : BothWays w.edges)
    (htstays : t ∉ w.selected ∧ t ∉ w.merged) (hustays : u ∉ w.selected ∧ u ∉ w.merged)
    (degree : Array Nat) {m : Nat} (hm : Vars.isMachine m = false) :
    (around { w with edges := joined w.edges t u, degree } m).card =
      (w.around m).card + (if t = m then 1 else 0) + if u = m then 1 else 0 := by
  have hapart : u ∉ w.edges.getD t .empty := KeySet.contains_eq_false.mp hnew
  have hapart' : t ∉ w.edges.getD u .empty := fun hmem => hapart (hways u t hmem).2
  -- Both stay in the graph, so each comes to be around the other.
  have haround : ∀ x, x ∈ around { w with edges := joined w.edges t u, degree } m ↔
      x ∈ w.around m ∨ m = t ∧ x = u ∨ m = u ∧ x = t := by
    intro x
    rw [mem_around hm, mem_around hm]
    change x ∈ (joined w.edges t u).getD m .empty ∧ x ∉ w.selected ∧ x ∉ w.merged ↔ _
    rw [mem_getD_joined ht hu]
    constructor
    · rintro ⟨hx | ⟨_, hx⟩, hstays⟩
      · exact .inl ⟨hx, hstays⟩
      · exact .inr hx
    · rintro (⟨hx, hstays⟩ | ⟨rfl, rfl⟩ | ⟨rfl, rfl⟩)
      · exact ⟨.inl hx, hstays⟩
      · exact ⟨.inr ⟨hne, .inl ⟨rfl, rfl⟩⟩, hustays⟩
      · exact ⟨.inr ⟨hne, .inr ⟨rfl, rfl⟩⟩, htstays⟩
  generalize around { w with edges := joined w.edges t u, degree } m = s at haround
  by_cases hmt : t = m
  · subst hmt
    have hset : s = insert u (w.around t) := by
      ext x
      rw [haround, Finset.mem_insert]
      grind
    rw [hset, Finset.card_insert_of_notMem fun hmem => hapart ((mem_around hm).mp hmem).1,
      if_pos rfl, if_neg hne.symm]
  · by_cases hmu : u = m
    · subst hmu
      have hset : s = insert t (w.around u) := by
        ext x
        rw [haround, Finset.mem_insert]
        grind
      rw [hset, Finset.card_insert_of_notMem fun hmem => hapart' ((mem_around hm).mp hmem).1,
        if_neg hne, if_pos rfl]
    · have hset : s = w.around m := by
        ext x
        rw [haround]
        grind
      rw [hset, if_neg hmt, if_neg hmu, Nat.add_zero]

/-- A neighbour of the merged register becomes one of the other, and counts what it lost. -/
theorem Measured.relink (h : w.Measured (t :: owed) loose) (hloose : loose u)
    (hways : BothWays w.edges) (ht : t < w.edges.size) (hu : u < w.edges.size) (hne : t ≠ u)
    (htstays : t ∉ w.selected ∧ t ∉ w.merged) (hustays : u ∉ w.selected ∧ u ∉ w.merged) :
    ((w.join t u).lowerDegree t).Measured owed loose := by
  cases hnew : w.interfere t u with
  | true =>
    have heq : w.join t u = w := by
      rw [join, if_pos (by simp [hnew])]
    rw [heq]
    exact h.lowerDegree fun _ _ => .inl
  | false =>
    obtain ⟨degree, heq, hsize, hdegree⟩ := join_spec (h.size ▸ ht) (h.size ▸ hu) hne hnew
    have hcard := @card_around_joined w t u ht hu hne hnew hways htstays hustays degree
    have heased : ∀ {m}, m ∈ w.simplify ∨ m ∈ w.freeze → Vars.isMachine m = false :=
      fun hm => h.plain (hm.elim .inl fun hm => .inr (.inl hm))
    rw [heq]
    -- Between the two the neighbour may have a count too many for its list.
    suffices hjoined : Measured { w with edges := joined w.edges t u, degree } (t :: owed)
        fun m => m = t ∨ loose m by
      refine hjoined.lowerDegree fun m hm hl => ?_
      rcases hl with rfl | hl
      · grind [h.eased, le_of_eq_of_le]
      · exact .inl hl
    refine ⟨?_, h.plain, fun {m} hm => ?_, fun {m} hm => ?_, fun {m} hm hnot => ?_⟩
    · exact hsize.trans (h.size.trans (size_joined _ _ _).symm)
    · have hplain := h.plain hm
      have hold := h.degree hm
      have hcount := hcard hplain
      refine (hdegree m hplain).trans ?_
      rw [hcount]
      omega
    · have hle := h.crowded hm
      refine Nat.le_trans ?_ (hdegree m (h.plain (.inr (.inr hm)))).ge
      omega
    · grind [lt_of_eq_of_lt, h.eased]

theorem not_mem_simplify_relink (hne : t ≠ u) (h : u ∉ w.simplify) :
    u ∉ ((w.join t u).lowerDegree t).simplify := by
  have hjoin : (w.join t u).simplify = w.simplify := by
    unfold join raiseDegree
    split
    · rfl
    · split <;> split <;> rfl
  intro hmem
  rcases mem_simplify_lowerDegree hmem with hmem | hmem
  · exact h (hjoin ▸ hmem)
  · exact hne hmem.symm

/-- All neighbours of the merged register become those of the other. -/
theorem Measured.relinkAll {ts : List Nat} (h : w.Measured ts loose) (hloose : loose u)
    (hways : BothWays w.edges) (hu : u < w.edges.size) (hsimplify : u ∉ w.simplify) (hustays : u ∉ w.selected ∧ u ∉ w.merged)
    (hts : ∀ t ∈ ts, t < w.edges.size ∧ t ≠ u ∧ t ∉ w.selected ∧ t ∉ w.merged) :
    (ts.foldl (fun w t => (w.join t u).lowerDegree t) w).Measured [] loose ∧
      u ∉ (ts.foldl (fun w t => (w.join t u).lowerDegree t) w).simplify := by
  induction ts generalizing w with
  | nil => exact ⟨h, hsimplify⟩
  | cons t ts ih =>
    obtain ⟨ht, hne, htstays⟩ := hts t mem_cons_self
    have hquiet := ((tame_join ht hu).trans (tame_lowerDegree _ t)).toQuiet
    refine ih (h.relink hloose hways ht hu hne htstays hustays) (hquiet.bothWays hways) ?_
      (not_mem_simplify_relink hne hsimplify) ?_ ?_
    · rwa [hquiet.size]
    · rwa [hquiet.selected, hquiet.merged]
    · intro s hs
      rw [hquiet.size, hquiet.selected, hquiet.merged]
      exact hts s (mem_cons_of_mem t hs)

/-- A register that got too many neighbours for its list goes where the crowded are. -/
theorem Measured.tighten (h : w.Measured [] fun m => m = u ∨ loose m) (hsimplify : u ∉ w.simplify) :
    (if w.freeze.contains u && w.isCrowded u then
      { w with freeze := w.freeze.erase u, spill := w.spill.insert u } else w).Measured [] loose := by
  have hcrowded : ∀ {m}, m ∈ w.freeze → (w.isCrowded m = true ↔
      paletteSize ≤ w.degree.getD m 0) := by
    intro m hm
    simp only [isCrowded, h.plain (.inr (.inl hm)), Bool.false_or, decide_eq_true_eq]
  split
  next hboth =>
    rw [Bool.and_eq_true, KeySet.contains_iff_mem] at hboth
    obtain ⟨hu, hfull⟩ := hboth
    have hlisted : ∀ {m},
        Listed { w with freeze := w.freeze.erase u, spill := w.spill.insert u } m →
          w.Listed m := by
      grind [Listed]
    refine ⟨h.size, fun hm => h.plain (hlisted hm), fun hm => h.degree (hlisted hm), fun hm => ?_,
      fun hm _ => ?_⟩
    · grind [h.crowded]
    · grind [h.eased]
  next hnot =>
    refine ⟨h.size, h.plain, h.degree, h.crowded, fun {m} hm hnot' => ?_⟩
    by_cases heq : m = u
    · subst heq
      have hm := hm.resolve_left hsimplify
      by_contra hge
      exact hnot (Bool.and_eq_true _ _ ▸ ⟨hm, (hcrowded hm).mpr (Nat.le_of_not_lt hge)⟩)
    · exact h.eased hm (not_or.mpr ⟨heq, hnot'⟩)

theorem Measured.merge (hw : w.Sound g) (h : w.Measured [] loose) (huv : Mergeable g w u v)
    (ready : KeySet) : (merge { w with ready } u v).Measured [] loose := by
  have hv := huv.listed
  have hplain := h.plain hv
  have hleft : Measured (enableCopies (fused { w with ready } u v) v)
      (w.partners u v).toList fun m => m = u ∨ loose m := by
    refine h.leaves (n := v) hw hv (fun _ => .inr) rfl rfl ?_ ?_ ?_ ?_
    all_goals grind [enableCopies, fused]
  obtain ⟨hrelinked, hsimplify⟩ := hleft.relinkAll (.inl rfl) hw.bothWays (hw.edges_size ▸ huv.lt)
    (fun hmem => huv.waiting.1 (KeySet.mem_erase.mp hmem).1)
    ⟨huv.waiting.2, fun hmem => (KeySet.mem_insert.mp hmem).elim huv.kept huv.ne⟩ (by
      intro t ht
      rw [KeySet.mem_toList, KeySet.contains_iff_mem, mem_partners hplain] at ht
      obtain ⟨hedge, hselected, hmerged, hne⟩ := ht
      refine ⟨(hw.bothWays v t hedge).1, ?_, hselected, fun hmem =>
        (KeySet.mem_insert.mp hmem).elim hmerged hne⟩
      rintro rfl
      exact KeySet.contains_eq_false.mp huv.apart (hw.bothWays v t hedge).2)
  exact hrelinked.tighten hsimplify

/-! ## Moving between lists -/

theorem Measured.settle (h : w.Measured [] loose) (ready active : KeySet) :
    Measured { w with ready, active } [] loose :=
  ⟨h.size, h.plain, h.degree, h.crowded, h.eased⟩

/-- Registers that are not crowded may go to the list of those to be taken out. -/
theorem Measured.ease (h : w.Measured [] loose) (hn : n ∈ w.freeze) :
    Measured { w with freeze := w.freeze.erase n, simplify := w.simplify.insert n } [] loose := by
  have hlisted : ∀ {m},
      Listed { w with freeze := w.freeze.erase n, simplify := w.simplify.insert n } m →
        w.Listed m := by
    grind [Listed]
  refine ⟨h.size, fun hm => h.plain (hlisted hm), fun hm => h.degree (hlisted hm), h.crowded,
    fun hm hnot => ?_⟩
  rcases hm with hm | hm
  · grind [h.eased]
  · exact h.eased (.inr (KeySet.mem_erase.mp hm).1) hnot

theorem Measured.relax (h : w.Measured [] loose) (n : Nat) : (w.relax n).Measured [] loose := by
  grind [Worklist.relax, KeySet.contains_iff_mem, h.ease]

theorem Measured.giveUpAll (h : w.Measured [] loose) (n : Nat) :
    (w.giveUpAll g n).Measured [] loose := by
  unfold Worklist.giveUpAll
  generalize (w.pending n).toList = ids
  induction ids generalizing w with
  | nil => exact h
  | cons id ids ih => exact ih ((h.settle _ _).relax _)

theorem Measured.thaw (h : w.Measured [] loose) (hn : n ∈ w.freeze) :
    (w.thaw g n).Measured [] loose :=
  (h.ease hn).giveUpAll n

theorem Measured.coalesce (hg : g.Regular) (hw : w.Sound g) (h : w.Measured [] loose) {id : Nat}
    (hid : id ∈ w.ready) : (w.coalesce g id).Measured [] loose := by
  have hready : Measured { w with ready := w.ready.erase id } [] loose := h.settle _ w.active
  obtain ⟨c, u, v, _, _, ⟨_, heq⟩ | heq | ⟨huv, _, heq⟩ | heq⟩ := coalesce_cases hg hw hid
  · rw [heq]
    exact hready.relax u
  · rw [heq]
    exact (hready.relax u).relax v
  · rw [heq]
    exact (h.merge hw huv _).relax u
  · rw [heq]
    exact h.settle _ _

/-! ## The first stage -/

theorem place_crowded (hn : w.isCrowded n = true) :
    w.place n = { w with spill := w.spill.insert n } := by
  rw [place, if_pos hn]

/-- Placing puts registers on the lists that their degrees ask for. -/
theorem foldl_place_lists {ns : List Nat} (hns : ∀ n ∈ ns, Vars.isMachine n = false) :
    (∀ m, m ∈ (ns.foldl place w).spill → m ∈ w.spill ∨ paletteSize ≤ w.degree.getD m 0) ∧
      ∀ m, m ∈ (ns.foldl place w).simplify ∨ m ∈ (ns.foldl place w).freeze →
        (m ∈ w.simplify ∨ m ∈ w.freeze) ∨ w.degree.getD m 0 < paletteSize := by
  induction ns generalizing w with
  | nil => exact ⟨fun _ => .inl, fun _ => .inl⟩
  | cons n ns ih =>
    have hn := hns n mem_cons_self
    obtain ⟨hspill, heased⟩ := ih (w := w.place n) fun m hm =>
      hns m (mem_cons_of_mem n hm)
    rw [foldl_cons]
    cases hcrowded : w.isCrowded n with
    | true =>
      have hdegree : paletteSize ≤ w.degree.getD n 0 := by
        simpa only [isCrowded, hn, Bool.false_or, decide_eq_true_eq] using hcrowded
      rw [place_crowded hcrowded] at hspill heased ⊢
      refine ⟨fun m hm => ?_, heased⟩
      rcases hspill m hm with hm | hm
      · rcases KeySet.mem_insert.mp hm with hm | rfl
        · exact .inl hm
        · exact .inr hdegree
      · exact .inr hm
    | false =>
      have hdegree : w.degree.getD n 0 < paletteSize := by
        simpa only [isCrowded, hn, Bool.false_or, decide_eq_false_iff_not, Nat.not_le]
          using hcrowded
      obtain ⟨hsame, hspill', hsimplify, hfreeze⟩ := place_eased hcrowded
      rw [hsame] at hspill heased
      refine ⟨fun m hm => (hspill m hm).imp_left (hspill' m), fun m hm => ?_⟩
      rcases heased m hm with (hm | hm) | hm
      · rcases hsimplify m hm with hm | rfl
        · exact .inl (.inl hm)
        · exact .inr hdegree
      · rcases hfreeze m hm with hm | rfl
        · exact .inl (.inr hm)
        · exact .inr hdegree
      · exact .inr hm

theorem exact_start (hg : g.Regular) : (start g).Exact := by
  have hsound := sound_start hg
  have hplain : ∀ {m}, (start g).Listed m → Vars.isMachine m = false := fun hm =>
    hsound.not_machine (.inl hm)
  obtain ⟨hspill, heased⟩ := @foldl_place_lists (unplaced g)
    (List.range' Vars.machineCount (g.size - Vars.machineCount)) (by
      intro n hn
      simpa [Vars.isMachine] using (mem_range'_1.mp hn).1)
  have hlists : start g = (List.range' Vars.machineCount (g.size - Vars.machineCount)).foldl place
    (unplaced g) := rfl
  obtain ⟨simplify, freeze, spill, heq, _⟩ := start_spec g
  rw [← hlists, heq] at hspill heased
  rw [heq] at hplain ⊢
  have hget : ∀ m, (g.edges.map KeySet.size).getD m 0 = (g.edges.getD m .empty).size := by
    intro m
    by_cases hm : m < g.edges.size
    · simp [Array.getD, hm]
    · simp only [Array.getD, Array.size_map, hm, dif_neg, not_false_eq_true]
      rfl
  refine ⟨Array.size_map, hplain, fun {m} hm => ?_, fun {m} hm => ?_, fun {m} hm _ => ?_⟩
  · refine (hget m).trans ?_
    rw [← KeySet.card_keys, count_nil, Nat.add_zero]
    congr 1
    ext t
    rw [mem_around (hplain hm), KeySet.mem_keys]
    exact ⟨fun ht => ⟨ht, KeySet.not_mem_empty, KeySet.not_mem_empty⟩, And.left⟩
  · exact (hspill m hm).resolve_left KeySet.not_mem_empty
  · exact (heased m hm).resolve_left fun h => h.elim KeySet.not_mem_empty KeySet.not_mem_empty

end

end Worklist

end Alloc

end X64Backend
