import X64Backend.Proofs.Alloc.Degrees

/-! # Sparse graphs

A graph whose registers can be taken out one by one, each with fewer neighbours left than there
are colours, stays one under the tests for merging. So there is always a register that is not
crowded, none is ever sacrificed, and all find a colour.
-/

namespace X64Backend.Alloc

open Asm Dataflow List

/-- The registers of a list can be taken out in its order, each with fewer neighbours left than
the palette has colours. Machine registers stay. -/
def Dismantles (edges : Array KeySet) : List Nat → Prop
  | [] => True
  | n :: rest =>
    ((edges.getD n .empty).toList.filter fun t => Vars.isMachine t || rest.contains t).length <
      paletteSize ∧ Dismantles edges rest

instance decidableDismantles (edges : Array KeySet) :
    (order : List Nat) → Decidable (Dismantles edges order)
  | [] => isTrue trivial
  | _ :: rest => @instDecidableAnd _ _ _ (decidableDismantles edges rest)

namespace Worklist

/-- In every part of the graph some register has few neighbours that are in the part or the
machine's. -/
def Sparse (w : Worklist) : Prop :=
  ∀ part : Finset Nat, part.Nonempty → (∀ n ∈ part, w.Listed n) →
    ∃ n ∈ part, ((w.around n).filter fun t => t ∈ part ∨ Vars.isMachine t = true).card < paletteSize

section

variable {g : Interference} {w w' : Worklist} {n t u v : Nat}

/-! ## The graph stays sparse -/

theorem Sparse.mono (h : w.Sparse) (hlisted : ∀ n, w'.Listed n → w.Listed n)
    (haround : ∀ n, w'.Listed n → w'.around n ⊆ w.around n) : w'.Sparse := by
  intro part hpart hall
  obtain ⟨n, hn, hcard⟩ := h part hpart fun n hn => hlisted n (hall n hn)
  refine ⟨n, hn, Nat.lt_of_le_of_lt (Finset.card_le_card ?_) hcard⟩
  exact Finset.filter_subset_filter _ (haround n (hall n hn))

theorem Sparse.pushed (hw : w.Sound g) (h : w.Sparse) (n : Nat) : (w.pushed n).Sparse := by
  have hlisted : ∀ m, (w.pushed n).Listed m → w.Listed m := fun m hm =>
    hm.imp_left fun hm => (KeySet.mem_erase.mp hm).1
  refine h.mono hlisted fun m hm t ht => ?_
  have hplain := hw.not_machine (.inl (hlisted m hm))
  rw [mem_around hplain] at ht ⊢
  exact ⟨ht.1, fun hmem => ht.2.1 (KeySet.mem_insert.mpr (.inl hmem)), ht.2.2⟩

end

/-! ### Merging -/

section

variable {g : Interference} {w w' : Worklist} {n t u v : Nat} {part : Finset Nat}
  (hw : w.Sound g) (hexact : w.Exact) (huv : Mergeable g w u v) (hquiet : Quiet (w.fused u v) w')
  (hedges : ∀ x y, x ∈ w'.edges.getD y .empty ↔ x ∈ w.edges.getD y .empty ∨
    x ≠ y ∧ (y ∈ w.partners u v ∧ x = u ∨ y = u ∧ x ∈ w.partners u v))

include hquiet in
theorem listed_of_merged (hn : w'.Listed n) : w.Listed n := by
  rcases (hquiet.listed n).mp hn with hn | hn | hn
  · exact .inl (KeySet.mem_erase.mp hn).1
  · exact .inr (.inl (KeySet.mem_erase.mp hn).1)
  · exact .inr (.inr (KeySet.mem_erase.mp hn).1)

include hw huv in
theorem not_mem_around_of_mergeable (hu : Vars.isMachine u = false) :
    v ∉ w.around u ∧ u ∉ w.around v := by
  have hapart : v ∉ w.edges.getD u .empty := KeySet.contains_eq_false.mp huv.apart
  constructor
  · exact fun hmem => hapart ((mem_around hu).mp hmem).1
  · intro hmem
    have hedge := ((mem_around (hw.not_machine (.inl huv.listed))).mp hmem).1
    exact hapart (hw.bothWays v u hedge).2

include hw huv hquiet hedges

/-- What is around a register after a merge. -/
theorem mem_around_merged (hn : Vars.isMachine n = false) (ht : t ∈ w'.around n) :
    t ≠ v ∧ (t ∈ w.around n ∨ v ∈ w.around n ∧ t = u ∨ n = u ∧ t ∈ w.around v) := by
  have hv := huv.listed
  have hplain := hw.not_machine (.inl hv)
  obtain ⟨hedge, hselected, hmerged⟩ := (mem_around hn).mp ht
  rw [hquiet.selected] at hselected
  rw [hquiet.merged] at hmerged
  have hmerged' : t ∉ w.merged ∧ t ≠ v :=
    ⟨fun hmem => hmerged (KeySet.mem_insert.mpr (.inl hmem)),
      fun heq => hmerged (KeySet.mem_insert.mpr (.inr heq))⟩
  refine ⟨hmerged'.2, ?_⟩
  rcases (hedges t n).mp hedge with hedge | ⟨_, ⟨hpartner, rfl⟩ | ⟨rfl, hpartner⟩⟩
  · exact .inl ((mem_around hn).mpr ⟨hedge, hselected, hmerged'.1⟩)
  · have hback := (hw.bothWays v n ((mem_partners hplain).mp hpartner).1).2
    exact .inr (.inl ⟨(mem_around hn).mpr
      ⟨hback, hw.not_selected hv, hw.not_merged (.inl hv)⟩, rfl⟩)
  · grind [mem_partners, mem_around]

/-- A register other than the two that are merged gets no more neighbours. -/
theorem card_around_merged_le (hn : Vars.isMachine n = false) (hne : n ≠ u) :
    (w'.around n).card ≤ (w.around n).card := by
  have hmem : ∀ t ∈ w'.around n, t ≠ v ∧ (t ∈ w.around n ∨ v ∈ w.around n ∧ t = u) := by
    intro t ht
    obtain ⟨htv, hcases⟩ := mem_around_merged hw huv hquiet hedges hn ht
    exact ⟨htv, hcases.imp_right fun hcases => hcases.resolve_right fun h => hne h.1⟩
  by_cases hv : v ∈ w.around n
  · -- The merged register goes, and the other may come.
    have hsub : w'.around n ⊆ insert u ((w.around n).erase v) := by
      grind
    have hle := Finset.card_le_card hsub
    have hinsert := Finset.card_insert_le u ((w.around n).erase v)
    have herase := Finset.card_erase_of_mem hv
    have hpos := Finset.card_pos.mpr ⟨v, hv⟩
    omega
  · refine Finset.card_le_card fun t ht => ?_
    exact (hmem t ht).2.resolve_right fun h => hv h.1

include hexact

/-- A register that is not crowded has few neighbours after a merge too. -/
theorem few_of_eased (hn : w'.Listed n) (hne : n ≠ u) (hdegree : w.degree.getD n 0 < paletteSize) :
    ((w'.around n).filter fun t => t ∈ part ∨ Vars.isMachine t = true).card < paletteSize := by
  have hold := listed_of_merged hquiet hn
  have hle := card_around_merged_le hw huv hquiet hedges (hexact.plain hold) hne
  have hfilter := Finset.card_filter_le (w'.around n) fun t => t ∈ part ∨ Vars.isMachine t = true
  rw [hexact.degree hold, count_nil] at hdegree
  omega

/-- Where the other register is no new neighbour that counts, what was few stays few. -/
theorem Sparse.merged_apart (h : w.Sparse) (hpart : part.Nonempty)
    (hall : ∀ n ∈ part, w'.Listed n) (hu : u ∉ part)
    (hold : ∀ n ∈ part, v ∈ w.around n → u ∈ w.around n ∨ Vars.isMachine u = false) :
    ∃ n ∈ part, ((w'.around n).filter fun t => t ∈ part ∨ Vars.isMachine t = true).card <
      paletteSize := by
  obtain ⟨n, hn, hcard⟩ := h part hpart fun n hn => listed_of_merged hquiet (hall n hn)
  refine ⟨n, hn, Nat.lt_of_le_of_lt (Finset.card_le_card fun t ht => ?_) hcard⟩
  obtain ⟨ht, hcounts⟩ := Finset.mem_filter.mp ht
  have hplain := hexact.plain (listed_of_merged hquiet (hall n hn))
  refine Finset.mem_filter.mpr ⟨?_, hcounts⟩
  rcases (mem_around_merged hw huv hquiet hedges hplain ht).2 with ht | ⟨hv, rfl⟩ | ⟨rfl, _⟩
  · exact ht
  · grind
  · exact absurd hn hu

/-- Into a machine register: a neighbour that is new to it is not crowded. -/
theorem Sparse.merged_harmless (h : w.Sparse) (hmachine : Vars.isMachine u = true)
    (hharmless : w.isHarmless u v = true) : w'.Sparse := by
  intro part hpart hall
  have hu : u ∉ part := by
    intro hmem
    rw [hexact.plain (listed_of_merged hquiet (hall u hmem))] at hmachine
    cases hmachine
  by_cases hold : ∀ n ∈ part, v ∈ w.around n → u ∈ w.around n
  · exact h.merged_apart hw hexact huv hquiet hedges hpart hall hu fun n hn hv =>
      .inl (hold n hn hv)
  · push Not at hold
    obtain ⟨n, hn, hv, hnot⟩ := hold
    have hlisted := listed_of_merged hquiet (hall n hn)
    have hplain := hexact.plain hlisted
    have hback : n ∈ (w.neighbours v).toList := by
      rw [KeySet.mem_toList, KeySet.contains_iff_mem, ← KeySet.mem_keys, ← around,
        mem_around (hexact.plain huv.listed)]
      have hedge := ((mem_around hplain).mp hv).1
      exact ⟨(hw.bothWays n v hedge).2, hw.not_selected hlisted, hw.not_merged (.inl hlisted)⟩
    have heased := all_eq_true.mp hharmless n hback
    rw [hplain, Bool.false_or, Bool.or_eq_true, decide_eq_true_eq] at heased
    refine ⟨n, hn, few_of_eased hw hexact huv hquiet hedges (hall n hn) (fun heq => hu (heq ▸ hn))
      (heased.resolve_right fun hmeets => hnot ?_)⟩
    exact (mem_around hplain).mpr ⟨hmeets, huv.waiting.2, huv.kept⟩

/-- Into another register: it has few crowded neighbours, or one that is not crowded. -/
theorem Sparse.merged_conservative (h : w.Sparse) (hseparates : w.Separates)
    (hmachine : Vars.isMachine u = false) (hconservative : w.isConservative u v = true) :
    w'.Sparse := by
  intro part hpart hall
  by_cases hu : u ∈ part
  · obtain ⟨hvu, huv'⟩ := not_mem_around_of_mergeable hw huv hmachine
    have hmem : ∀ {t}, t ∈ w'.around u → t ∈ w.around u ∨ t ∈ w.around v := by
      intro t ht
      rcases (mem_around_merged hw huv hquiet hedges hmachine ht).2 with ht | ⟨hv, _⟩ | ⟨_, ht⟩
      · exact .inl ht
      · exact absurd hv hvu
      · exact .inr ht
    -- If all around the merged register are crowded, it has few of them itself.
    by_cases hcrowded : ∀ t ∈ w'.around u, t ∈ part ∨ Vars.isMachine t = true →
        w.isCrowded t = true
    · refine ⟨u, hu, Nat.lt_of_le_of_lt ?_ (of_decide_eq_true hconservative)⟩
      have hnodup := (KeySet.nodup_toList ((w.neighbours u).union (w.neighbours v))).filter
        w.isCrowded
      rw [← toFinset_card_of_nodup hnodup]
      refine Finset.card_le_card fun t ht => ?_
      obtain ⟨ht, hcounts⟩ := Finset.mem_filter.mp ht
      rw [mem_toFinset, mem_filter, KeySet.mem_toList, KeySet.contains_iff_mem,
        KeySet.mem_union, ← KeySet.mem_keys, ← KeySet.mem_keys]
      exact ⟨hmem ht, hcrowded t ht hcounts⟩
    · push Not at hcrowded
      obtain ⟨t, ht, hcounts, heased⟩ := hcrowded
      simp only [isCrowded, ne_eq, Bool.or_eq_true, decide_eq_true_eq, not_or, Nat.not_le] at heased
      have htpart := hcounts.resolve_right heased.1
      refine ⟨t, htpart, few_of_eased hw hexact huv hquiet hedges (hall t htpart) ?_ heased.2⟩
      rintro rfl
      rcases hmem ht with ht | ht
      · exact hseparates.ne ((mem_around hmachine).mp ht).1 rfl
      · exact huv' ht
  · exact h.merged_apart hw hexact huv hquiet hedges hpart hall hu fun _ _ _ => .inr hmachine

end

section

variable {g : Interference} {w w' : Worklist} {n t u v : Nat}

theorem Sparse.advances (hw : w.Sound g) (hexact : w.Exact) (hseparates : w.Separates)
    (h : w.Sparse) (hadvances : Advances g w w') : w'.Sparse := by
  have hquiet : ∀ {w w' : Worklist}, w.Sparse → Quiet w w' → w'.edges = w.edges → w'.Sparse := by
    intro w w' h hquiet hedges
    refine h.mono (fun n => (hquiet.listed n).mp) fun n _ => ?_
    rw [around_congr hedges hquiet.selected hquiet.merged]
  cases hadvances with
  | quiet h' hedges _ => exact hquiet h h' hedges
  | select _ h' hedges => exact hquiet (h.pushed hw _) h' hedges
  | @merge u v huv hmay h' hedges =>
    unfold mayMerge at hmay
    cases hmachine : Vars.isMachine u with
    | true =>
      rw [hmachine, if_pos rfl] at hmay
      exact h.merged_harmless hw hexact huv h' hedges hmachine hmay
    | false =>
      grind [h.merged_conservative]

/-- A list that dismantles a graph leaves a register with few neighbours in every part. -/
theorem exists_few_of_dismantles {edges : Array KeySet} (hloopless : Loopless edges)
    {order : List Nat} (h : Dismantles edges order) {part : Finset Nat} (hpart : part.Nonempty)
    (hall : ∀ n ∈ part, n ∈ order) :
    ∃ n ∈ part, ((edges.getD n .empty).keys.filter fun t =>
      t ∈ part ∨ Vars.isMachine t = true).card < paletteSize := by
  induction order with
  | nil =>
    obtain ⟨n, hn⟩ := hpart
    exact absurd (hall n hn) not_mem_nil
  | cons m rest ih =>
    by_cases hm : m ∈ part
    · refine ⟨m, hm, Nat.lt_of_le_of_lt ?_ h.1⟩
      rw [← toFinset_card_of_nodup ((KeySet.nodup_toList _).filter _)]
      refine Finset.card_le_card fun t ht => ?_
      obtain ⟨ht, hcounts⟩ := Finset.mem_filter.mp ht
      have hne : t ≠ m := by
        rintro rfl
        exact hloopless t (KeySet.mem_keys.mp ht)
      rw [mem_toFinset, mem_filter, ← mem_toFinset]
      refine ⟨ht, ?_⟩
      rw [Bool.or_eq_true, contains_iff_mem]
      rcases hcounts with hcounts | hcounts
      · exact .inr ((mem_cons.mp (hall t hcounts)).resolve_left hne)
      · exact .inl hcounts
    · refine ih h.2 fun n hn => (mem_cons.mp (hall n hn)).resolve_left ?_
      rintro rfl
      exact hm hn

theorem sparse_start (hg : g.Regular) {order : List Nat}
    (horder : ∀ n, Vars.machineCount ≤ n → n < g.size → n ∈ order)
    (h : Dismantles g.edges order) : (start g).Sparse := by
  have hsound := sound_start hg
  obtain ⟨_, _, _, heq, _⟩ := start_spec g
  intro part hpart hall
  have hwhere := fun n hn => (hsound.somewhere n).mp (.inl (hall n hn))
  obtain ⟨n, hn, hcard⟩ := exists_few_of_dismantles hg.loopless h hpart fun n hn =>
    horder n (hwhere n hn).1 (hwhere n hn).2
  refine ⟨n, hn, Nat.lt_of_le_of_lt (Finset.card_le_card fun t ht => ?_) hcard⟩
  obtain ⟨ht, hcounts⟩ := Finset.mem_filter.mp ht
  have hedge := ((mem_around (hsound.not_machine (.inl (hall n hn)))).mp ht).1
  rw [heq] at hedge
  exact Finset.mem_filter.mpr ⟨KeySet.mem_keys.mpr hedge, hcounts⟩

/-! ## Nothing is sacrificed -/

/-- In a sparse graph not all registers are crowded. -/
theorem Sparse.not_all_crowded (hw : w.Sound g) (hexact : w.Exact) (h : w.Sparse)
    (hsimplify : ∀ n, n ∉ w.simplify) (hfreeze : ∀ n, n ∉ w.freeze) : n ∉ w.spill := by
  intro hn
  obtain ⟨m, hm, hcard⟩ := h w.spill.keys ⟨n, KeySet.mem_keys.mpr hn⟩ fun m hm =>
    .inr (.inr (KeySet.mem_keys.mp hm))
  have hspill := KeySet.mem_keys.mp hm
  have hlisted : w.Listed m := .inr (.inr hspill)
  have hall : ((w.around m).filter fun t => t ∈ w.spill.keys ∨ Vars.isMachine t = true) =
      w.around m := by
    refine Finset.filter_true_of_mem fun t ht => ?_
    rcases hw.listed_of_mem_around (hexact.plain hlisted) ht with (ht | ht | ht) | ht
    · exact absurd ht (hsimplify t)
    · exact absurd ht (hfreeze t)
    · exact .inl (KeySet.mem_keys.mpr ht)
    · exact .inr ht
  have hfull := hexact.crowded hspill
  rw [hall] at hcard
  rw [hexact.degree hlisted, count_nil] at hfull
  omega

theorem Measured.next? (hg : g.Regular) (hw : w.Sound g) (h : w.Exact) (hsparse : w.Sparse)
    (hnext : w.next? g = some w') : w'.Exact := by
  unfold Worklist.next? at hnext
  split at hnext
  next n hn =>
    obtain rfl := Option.some.inj hnext
    exact h.select hw (KeySet.mem_of_first? hn)
  next id _ hid =>
    obtain rfl := Option.some.inj hnext
    exact h.coalesce hg hw (KeySet.mem_of_first? hid)
  next n _ _ hn =>
    obtain rfl := Option.some.inj hnext
    exact h.thaw (KeySet.mem_of_first? hn)
  next n hsimplify _ hfreeze hn =>
    refine absurd ((KeySet.mem_toList _ _).mp (mem_of_cheapest? hn)) ?_
    exact hsparse.not_all_crowded hw h (KeySet.first?_eq_none hsimplify)
      (KeySet.first?_eq_none hfreeze)
  next => cases hnext

/-! ## Few colours are taken -/

/-- A register on the stack knows few registers that are coloured before it: those that left
the graph later, and the machine's. -/
def Few (w : Worklist) : Prop :=
  ∀ newer n older, w.stack = newer ++ n :: older →
    (((w.edges.getD n .empty).keys.image w.rootOf).filter (· ∉ n :: older)).card < paletteSize

theorem Few.quiet (h : w.Few) (hquiet : Quiet w w') (hedges : w'.edges = w.edges) : w'.Few := by
  intro newer n older hstack
  rw [hquiet.stack] at hstack
  have hroot : w'.rootOf = w.rootOf := funext hquiet.rootOf
  rw [hedges, hroot]
  exact h newer n older hstack

theorem Few.pushed (hw : w.Sound g) (hexact : w.Exact) (hseparates : w.Separates) (h : w.Few)
    (hn : n ∈ w.simplify) : (w.pushed n).Few := by
  intro newer m older hstack
  change n :: w.stack = newer ++ m :: older at hstack
  cases newer with
  | cons k newer => exact h newer m older (List.cons.inj hstack).2
  | nil =>
    obtain ⟨rfl, rfl⟩ := List.cons.inj hstack
    have hplain := hexact.plain (.inl hn)
    have hself := hw.rootOf_self (hw.not_merged (.inl (.inl hn)))
    have hcard := hexact.eased (.inl hn) id
    rw [hexact.degree (.inl hn), count_nil, Nat.add_zero] at hcard
    refine Nat.lt_of_le_of_lt (Finset.card_le_card fun r hr => ?_) hcard
    obtain ⟨hr, hnot⟩ := Finset.mem_filter.mp hr
    obtain ⟨t, ht, rfl⟩ := Finset.mem_image.mp hr
    have hedge : t ∈ w.edges.getD n .empty := KeySet.mem_keys.mp ht
    change w.rootOf t ∉ n :: w.stack at hnot
    have hselected : w.rootOf t ∉ w.selected := fun hmem =>
      hnot (mem_cons_of_mem n ((hw.mem_stack _).mpr hmem))
    have hpresent := hseparates.present hedge (hself.symm ▸ hw.not_selected (.inl hn)) hselected
    rw [hself] at hpresent
    exact (mem_around hplain).mpr
      ⟨hpresent, hselected, (hw.rootOf_spec (hw.lt_of_mem_edges hedge).2).2⟩

theorem Few.merged (hw : w.Sound g) (h : w.Few) (huv : Mergeable g w u v)
    (hquiet : Quiet (w.fused u v) w')
    (hedges : ∀ x y, x ∈ w'.edges.getD y .empty ↔ x ∈ w.edges.getD y .empty ∨
      x ≠ y ∧ (y ∈ w.partners u v ∧ x = u ∨ y = u ∧ x ∈ w.partners u v)) : w'.Few := by
  intro newer n older hstack
  rw [hquiet.stack] at hstack
  change w.stack = newer ++ n :: older at hstack
  have hmem : ∀ {m}, m ∈ n :: older → m ∈ w.selected := fun hm => by
    rw [← hw.mem_stack, hstack]
    exact mem_append_right newer hm
  have hn := hmem mem_cons_self
  -- What was taken out before keeps its edges.
  have hkept : ∀ t, t ∈ w'.edges.getD n .empty → t ∈ w.edges.getD n .empty := by
    grind [hw.not_machine, huv.listed, mem_partners, huv.waiting]
  refine Nat.lt_of_le_of_lt ?_ (h newer n older hstack)
  refine Nat.le_trans (Finset.card_le_card fun r hr => ?_)
    (Finset.card_image_le (f := fun r => if r = v then u else r))
  obtain ⟨hr, hnot⟩ := Finset.mem_filter.mp hr
  obtain ⟨t, ht, rfl⟩ := Finset.mem_image.mp hr
  have hedge := hkept t (KeySet.mem_keys.mp ht)
  have hroot : w'.rootOf t = if w.rootOf t = v then u else w.rootOf t :=
    (hquiet.rootOf t).trans (hw.rootOf_fused huv (hw.lt_of_mem_edges hedge).2)
  refine Finset.mem_image.mpr ⟨w.rootOf t, Finset.mem_filter.mpr ⟨?_, ?_⟩, hroot.symm⟩
  · exact Finset.mem_image.mpr ⟨t, KeySet.mem_keys.mpr hedge, rfl⟩
  · grind [hw.not_selected, huv.listed]

theorem Few.advances (hw : w.Sound g) (hexact : w.Exact) (hseparates : w.Separates) (h : w.Few)
    (hadvances : Advances g w w') : w'.Few := by
  cases hadvances with
  | quiet h' hedges _ => exact h.quiet h' hedges
  | select hn h' hedges => exact (h.pushed hw hexact hseparates hn).quiet h' hedges
  | merge huv _ h' hedges => exact h.merged hw huv h' hedges

/-- In the end the stack is good for colouring. -/
theorem final_few (hg : g.Regular) {order : List Nat}
    (horder : ∀ n, Vars.machineCount ≤ n → n < g.size → n ∈ order)
    (h : Dismantles g.edges order) : (final g).Few := by
  refine (final_induction hg (P := fun w => w.Few ∧ w.Exact ∧ w.Separates ∧ w.Sparse) ?_ ?_).2.1.1
  · refine ⟨?_, exact_start hg, separates_start hg, sparse_start hg horder h⟩
    obtain ⟨_, _, _, heq, _⟩ := start_spec g
    intro newer n older hstack
    rw [heq] at hstack
    exact absurd hstack (by simp [unplaced])
  · rintro w w' hw hnext ⟨hfew, hexact, hseparates, hsparse⟩
    have hadvances := advances_next? hg hw hnext
    exact ⟨hfew.advances hw hexact hseparates hadvances, hexact.next? hg hw hsparse hnext,
      hseparates.advances hw hadvances, hsparse.advances hw hexact hseparates hadvances⟩

end

end Worklist

namespace Coloring

variable {w : Worklist} {c : Coloring}

/-- A register for which few colours are taken gets one. -/
theorem exists_free_color {n : Nat} {roots : Finset Nat} (hfew : roots.card < paletteSize)
    (hroots : ∀ t ∈ w.edges.getD n .empty, c.colors.getD (w.rootOf t) none ≠ none →
      w.rootOf t ∈ roots) : ∃ r, palette.find? (fun r => !(c.taken w n).contains r) = some r := by
  cases hfind : palette.find? fun r => !(c.taken w n).contains r with
  | some r => exact ⟨r, rfl⟩
  | none =>
    -- Otherwise every colour is that of one of the few.
    have hsub : palette.toFinset ⊆
        roots.image fun m => (c.colors.getD m none).getD .rax := by
      intro r hr
      have htaken := find?_eq_none.mp hfind r (mem_toFinset.mp hr)
      rw [Bool.not_eq_true', Bool.not_eq_false, contains_iff_mem] at htaken
      obtain ⟨t, ht, hcolor⟩ := mem_filterMap.mp htaken
      have hedge := (KeySet.mem_toList _ t).mp ht
      refine Finset.mem_image.mpr ⟨w.rootOf t, hroots t hedge ?_, ?_⟩
      · rw [hcolor]
        exact Option.some_ne_none r
      · rw [hcolor, Option.getD_some]
    have hle := Nat.le_trans (Finset.card_le_card hsub) Finset.card_image_le
    have hpalette : palette.toFinset.card = paletteSize :=
      toFinset_card_of_nodup (by decide)
    omega

/-- Where all registers know few that are coloured before them, none is spilled. -/
theorem spilled_foldl_of_few {ns : List Nat} (hnodup : ns.Nodup)
    (hns : ∀ n ∈ ns, n < c.colors.size)
    (hfew : ∀ newer n older, ns = newer ++ n :: older →
      (((w.edges.getD n .empty).keys.image w.rootOf).filter (· ∉ n :: older)).card < paletteSize)
    (hblank : ∀ n ∈ ns, c.colors.getD n none = none) :
    (ns.foldl (assign w) c).spilled = c.spilled := by
  induction ns generalizing c with
  | nil => rfl
  | cons n ns ih =>
    obtain ⟨hn, hnodup⟩ := nodup_cons.mp hnodup
    obtain ⟨r, hr⟩ := exists_free_color (c := c) (hfew [] n ns rfl) (by
      intro t ht hcolor
      refine Finset.mem_filter.mpr ⟨Finset.mem_image.mpr ⟨t, KeySet.mem_keys.mpr ht, rfl⟩, ?_⟩
      exact fun hmem => hcolor (hblank _ hmem))
    have hassign : c.assign w n = { c with colors := c.colors.setIfInBounds n (some r) } := by
      simp only [assign, hr]
    rw [foldl_cons, hassign, ih hnodup]
    · intro m hm
      rw [Array.size_setIfInBounds]
      exact hns m (mem_cons_of_mem n hm)
    · intro newer m older heq
      exact hfew (n :: newer) m older (by rw [heq, cons_append])
    · intro m hm
      have hne : n ≠ m := fun heq => hn (heq ▸ hm)
      rw [getD_setIfInBounds _ _ (hns n mem_cons_self), if_neg hne]
      exact hblank m (mem_cons_of_mem n hm)

end Coloring

end X64Backend.Alloc
