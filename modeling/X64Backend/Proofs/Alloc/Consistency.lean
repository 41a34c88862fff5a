import X64Backend.Proofs.Alloc.Degrees

/-! # Stages are consistent

At every stage each register is where its degree and its copies say, and each copy is looked at
or waits, not both. That a register which waits for its copies has some is the hard part: when a
copy is settled it is on the lists of the two registers at its ends only, and these are looked
at again right after.
-/

namespace X64Backend.Alloc

open Asm Dataflow List

namespace Worklist

/-- Copies wait in one place, registers have no copies on their lists but their own, and
registers that wait for copies have unsettled ones. Of the slack registers the last is not
known. -/
structure Tended (g : Interference) (w : Worklist) (slack : Nat → Prop) : Prop where
  single (id : Nat) (h : id ∈ w.ready) : id ∉ w.active
  unmerged {n : Nat} (h : w.Listed n) : n ∉ w.merged
  own {n id : Nat} (hn : n ∉ w.merged) (h : id ∈ w.copyLists.getD n .empty) :
    ∃ c, g.copies[id]? = some c ∧ (w.rootOf c.dst = n ∨ w.rootOf c.src = n)
  held {n : Nat} (h : n ∈ w.freeze) (hn : ¬ slack n) : ¬ w.Free n

section

variable {g : Interference} {w w' : Worklist} {n u v id : Nat} {slack slack' loose : Nat → Prop}

namespace Tended

theorem tame (h : w.Tended g slack) (htame : Tame w w') : w'.Tended g slack where
  single := htame.single h.single
  unmerged hn := by
    rw [htame.merged]
    exact h.unmerged ((htame.listed _).mp hn)
  own hn hid := by
    rw [htame.merged] at hn
    rw [htame.copyLists] at hid
    simp only [htame.toQuiet.rootOf]
    exact h.own hn hid
  held hn hslack := by
    rcases htame.frozen hn with hn | hn
    · rw [htame.free_iff]
      exact h.held hn hslack
    · exact hn

/-- When copies are settled the registers at their ends become slack. -/
theorem settle {ready active : KeySet} (h : w.Tended g slack)
    (hsingle : ∀ id, id ∈ ready → id ∉ active) (hslack : ∀ n, slack n → slack' n)
    (hends : ∀ id c, w.Unsettled id → ¬ (id ∈ ready ∨ id ∈ active) → g.copies[id]? = some c →
      slack' (w.rootOf c.dst) ∧ slack' (w.rootOf c.src)) :
    Tended g { w with ready, active } slack' where
  single := hsingle
  unmerged := h.unmerged
  own := h.own
  held {n} hn hnot hfree := by
    refine h.held hn (fun hs => hnot (hslack n hs)) fun id hid hunsettled => ?_
    obtain ⟨c, hc, hroot⟩ := h.own (h.unmerged (.inr (.inl hn))) hid
    have hslack := hends id c hunsettled (hfree id hid) hc
    rcases hroot with rfl | rfl
    · exact hnot hslack.1
    · exact hnot hslack.2

/-- A register that is looked at again is slack no more, unless it is crowded. -/
theorem relax (h : w.Tended g slack) (hn : n ∈ w.freeze → w.isCrowded n = false) :
    (w.relax n).Tended g fun m => slack m ∧ m ≠ n := by
  have htame := h.tame (tame_relax w n)
  refine { htame with held := fun {m} hm hnot => ?_ }
  by_cases heq : m = n
  · subst heq
    unfold Worklist.relax at hm ⊢
    split at hm
    next => exact absurd rfl (KeySet.mem_erase.mp hm).2
    next hcond =>
      rw [if_neg hcond, ← isCopyRelated_eq_false]
      intro hrelated
      exact hcond (by simp [hn hm, hrelated, KeySet.contains_iff_mem.mpr hm])
  · exact htame.held hm fun hs => hnot ⟨hs, heq⟩

theorem mono (h : w.Tended g slack) (hslack : ∀ n, n ∈ w.freeze → slack n → slack' n) :
    w.Tended g slack' :=
  { h with held := fun hn hnot => h.held hn fun hs => hnot (hslack _ hn hs) }

/-- Merging hands the copies of a register on to the other. -/
theorem fused (hg : g.Regular) (hw : w.Sound g) (h : w.Tended g slack) (huv : Mergeable g w u v)
    (hu : slack u) : (w.fused u v).Tended g slack := by
  have hv := hw.not_merged (.inl huv.listed)
  have hroots : ∀ {id : Nat} {c : Copy}, g.copies[id]? = some c →
      (w.fused u v).rootOf c.dst = (if w.rootOf c.dst = v then u else w.rootOf c.dst) ∧
      (w.fused u v).rootOf c.src = (if w.rootOf c.src = v then u else w.rootOf c.src) :=
    fun hc => ⟨hw.rootOf_fused huv (hg.dst hc).1, hw.rootOf_fused huv (hg.src hc).1⟩
  have hlists : ∀ {m id}, id ∈ (w.fused u v).copyLists.getD m .empty →
      id ∈ w.copyLists.getD m .empty ∨ m = u ∧ id ∈ w.copyLists.getD v .empty := by
    intro m id hid
    simp only [Worklist.fused, getD_modify] at hid
    grind [KeySet.mem_union]
  refine ⟨h.single, fun {m} hm => ?_, fun {m id} hm hid => ?_, fun {m} hm hnot hfree => ?_⟩
  · have hm' : w.Listed m ∧ m ≠ v := by grind [Listed, Worklist.fused]
    exact fun hmem => (KeySet.mem_insert.mp hmem).elim (h.unmerged hm'.1) hm'.2
  · have hm' : m ∉ w.merged ∧ m ≠ v := by grind [Worklist.fused]
    rcases hlists hid with hid | ⟨rfl, hid'⟩
    · obtain ⟨c, hc, hroot⟩ := h.own hm'.1 hid
      refine ⟨c, hc, ?_⟩
      rw [(hroots hc).1, (hroots hc).2]
      grind
    · obtain ⟨c, hc, hroot⟩ := h.own hv hid'
      refine ⟨c, hc, ?_⟩
      rw [(hroots hc).1, (hroots hc).2]
      exact hroot.imp (fun h => if_pos h) fun h => if_pos h
  · refine h.held (KeySet.mem_erase.mp hm).1 hnot fun id hid => hfree id ?_
    have hne : ¬ (u = m ∧ m < w.copyLists.size) := by
      rintro ⟨rfl, _⟩
      exact hnot hu
    simpa only [Worklist.fused, getD_modify, if_neg hne] using hid

theorem pushed (h : w.Tended g slack) (n : Nat) : (w.pushed n).Tended g slack :=
  { h with unmerged := fun hm => h.unmerged (hm.imp_left fun hm => (KeySet.mem_erase.mp hm).1) }

end Tended

/-- Registers that wait for copies are not crowded where degrees are right. -/
theorem Measured.not_crowded (h : w.Measured [] loose) (hn : n ∈ w.freeze) (hnot : ¬ loose n) :
    w.isCrowded n = false := by
  have hdegree := h.eased (.inr hn) hnot
  simp only [isCrowded, h.plain (.inr (.inl hn)), Bool.false_or, decide_eq_false_iff_not]
  omega

theorem Measured.mono (h : w.Measured [] loose) {loose' : Nat → Prop}
    (hloose : ∀ n, w.Listed n → loose n → loose' n) : w.Measured [] loose' := by
  refine { h with eased := fun hn hnot => h.eased hn fun hl => hnot (hloose _ ?_ hl) }
  exact hn.elim .inl fun hn => .inr (.inl hn)

theorem mem_freeze_relax {m : Nat} (h : m ∈ (w.relax n).freeze) : m ∈ w.freeze := by
  grind [relax]

/-- Giving the copies of a register up leaves no other register without any. -/
theorem Tended.giveUp_foldl {ids : List Nat} (h : w.Tended g (· = n)) (hm : w.Measured [] loose)
    (hloose : ∀ m, m ∈ w.freeze → ¬ loose m) (hn : n ∉ w.merged) (hroot : w.rootOf n = n)
    (hids : ∀ id ∈ ids, id ∈ w.copyLists.getD n .empty) :
    (ids.foldl (giveUp g n) w).Tended g (· = n) ∧
      ∀ m, m ∈ (ids.foldl (giveUp g n) w).freeze → m ∈ w.freeze := by
  induction ids generalizing w with
  | nil => exact ⟨h, fun _ => id⟩
  | cons id ids ih =>
    have hquiet : Quiet w (giveUp g n w id) := quiet_giveUp w id
    obtain ⟨c, hc, hends⟩ := h.own hn (hids id mem_cons_self)
    have hget : g.copies.getD id default = c := by simp [hc]
    generalize hother : (if w.rootOf c.src = w.rootOf n then w.rootOf c.dst else w.rootOf c.src) =
      other
    have hgive : giveUp g n w id = Worklist.relax
        { w with ready := w.ready.erase id, active := w.active.erase id } other := by
      rw [giveUp, hget, hother]
    have hsettled : Tended g { w with ready := w.ready.erase id, active := w.active.erase id }
        fun m => m = n ∨ m = other := by
      refine h.settle (fun j hj hj' => h.single j (KeySet.mem_erase.mp hj).1
        (KeySet.mem_erase.mp hj').1) (fun _ => .inl) fun j c' hj hgone hc' => ?_
      obtain rfl : j = id := by grind [Unsettled]
      obtain rfl := Option.some.inj (hc.symm.trans hc')
      grind
    have hfreeze : ∀ m, m ∈ (giveUp g n w id).freeze → m ∈ w.freeze := by
      rw [hgive]
      exact fun m hm => (mem_freeze_relax hm :)
    have hstep : (giveUp g n w id).Tended g (· = n) := by
      rw [hgive]
      exact (hsettled.relax fun ho => (hm.settle _ _).not_crowded ho (hloose _ ho)).mono
        fun m _ hm => hm.1.resolve_right hm.2
    have hmeasured : (giveUp g n w id).Measured [] loose := by
      rw [hgive]
      exact (hm.settle _ _).relax other
    obtain ⟨hrest, hsub⟩ := ih hstep hmeasured (fun m hm => hloose m (hfreeze m hm))
      (hquiet.merged ▸ hn) ((hquiet.rootOf n).trans hroot) (by
        rw [hquiet.copyLists]
        exact fun j hj => hids j (mem_cons_of_mem id hj))
    exact ⟨hrest, fun m hm => hfreeze m (hsub m hm)⟩

theorem Tended.giveUpAll (h : w.Tended g fun _ => False) (hm : w.Measured [] loose)
    (hloose : ∀ m, m ∈ w.freeze → ¬ loose m) (hn : n ∉ w.merged) (hroot : w.rootOf n = n)
    (hfrozen : n ∉ w.freeze) : (w.giveUpAll g n).Tended g fun _ => False := by
  have hids : ∀ id ∈ (w.pending n).toList, id ∈ w.copyLists.getD n .empty := fun id hid =>
    (KeySet.mem_inter.mp ((KeySet.mem_toList _ id).mp hid)).1
  obtain ⟨htended, hsub⟩ := (h.mono fun _ _ => False.elim).giveUp_foldl hm hloose hn hroot hids
  refine htended.mono fun m hm heq => ?_
  subst heq
  exact hfrozen (hsub m hm)

/-! ## From stage to stage -/

/-- What holds of copies and degrees at every stage: only registers that are to be taken out may
be crowded though they are not on the list of the crowded. -/
structure Kept (g : Interference) (w : Worklist) : Prop where
  tended : w.Tended g fun _ => False
  measured : w.Measured [] (· ∈ w.simplify)

theorem Advances.simplified (hg : g.Regular) (hw : w.Sound g) (h : Advances g w w')
    (hn : n ∈ w.simplify) (hlisted : w'.Listed n) : n ∈ w'.simplify := by
  cases h with
  | quiet h _ _ => exact h.simplified hn
  | @select m hm h _ =>
    have hne : n ≠ m := by
      rintro rfl
      exact (hw.pushed hm).not_selected ((h.listed n).mp hlisted) (KeySet.mem_insert.mpr (.inr rfl))
    exact h.simplified (KeySet.mem_erase.mpr ⟨hn, hne⟩)
  | @merge u v huv _ h _ =>
    have hne : n ≠ v := by
      rintro rfl
      exact (hw.fused hg huv).not_merged (.inl ((h.listed n).mp hlisted))
        (KeySet.mem_insert.mpr (.inr rfl))
    exact h.simplified (KeySet.mem_erase.mpr ⟨hn, hne⟩)

namespace Kept

theorem not_simplify (hw : w.Sound g) (hn : n ∈ w.freeze) : n ∉ w.simplify := fun hmem =>
  ((hw.apart n).1 hmem).1 hn

/-- The registers at the ends of a copy that is looked at are looked at again, or merged. -/
theorem coalesce (hg : g.Regular) (hw : w.Sound g) (h : w.Kept g) (hid : id ∈ w.ready) :
    (w.coalesce g id).Tended g fun _ => False := by
  obtain ⟨c, u, v, hc, hends, hcases⟩ := coalesce_cases hg hw hid
  have hlooked : Tended g { w with ready := w.ready.erase id } fun m => m = u ∨ m = v := by
    refine h.tended.settle (fun j hj =>
      h.tended.single j (KeySet.mem_erase.mp hj).1) (fun _ => False.elim) fun j c' hj hgone hc' => ?_
    obtain rfl : j = id := by grind [Unsettled]
    obtain rfl := Option.some.inj (hc.symm.trans hc')
    grind
  have hmeasured : Measured { w with ready := w.ready.erase id } [] (· ∈ w.simplify) :=
    h.measured.settle _ w.active
  have heased : ∀ m, m ∈ w.freeze → isCrowded { w with ready := w.ready.erase id } m = false :=
    fun m hm => hmeasured.not_crowded hm (not_simplify hw hm)
  rcases hcases with ⟨rfl, heq⟩ | heq | ⟨huv, _, heq⟩ | heq
  · rw [heq]
    exact (hlooked.relax (heased u)).mono fun m _ hm => hm.2 (or_self_iff.mp hm.1)
  · rw [heq]
    have hrelaxed := hlooked.relax (heased u)
    have heased' : ∀ m, m ∈ (Worklist.relax { w with ready := w.ready.erase id } u).freeze →
        (Worklist.relax { w with ready := w.ready.erase id } u).isCrowded m = false := fun m hm =>
      (hmeasured.relax u).not_crowded hm (not_simplify hw (mem_freeze_relax hm :))
    exact (hrelaxed.relax (heased' v)).mono fun m _ hm => hm.1.1.elim hm.1.2 hm.2
  · rw [heq]
    have hlook : Sound g { w with ready := w.ready.erase id } := hw.quiet (quiet_look w id)
    have huv' : Mergeable g { w with ready := w.ready.erase id } u v :=
      ⟨huv.ne, huv.lt, huv.kept, huv.waiting, huv.listed, huv.apart, huv.copy⟩
    have hmerge := (merge_spec (w := { w with ready := w.ready.erase id }) (v := v)
      (hw.edges_size ▸ huv.lt) hw.bothWays).1
    have hmerged := (hlooked.fused hg hlook huv' (.inl rfl)).tame hmerge
    refine (hmerged.relax fun hu => ?_).mono fun m hm hslack => ?_
    · refine (h.measured.merge hw huv _).not_crowded hu ?_
      exact huv.waiting.1
    · have hlisted : (Worklist.fused { w with ready := w.ready.erase id } u v).Listed m :=
        ((hmerge.trans (tame_relax _ u)).listed m).mp (.inr (.inl hm))
      obtain rfl := hslack.1.resolve_left hslack.2
      grind [Listed, Worklist.fused]
  · rw [heq]
    refine h.tended.settle ?_ (fun _ h => h) fun j c' hj hgone _ => ?_
    · grind [h.tended.single]
    · grind [Unsettled]

/-- A register whose copies are given up may be taken out, crowded or not. -/
theorem release {freeze spill : KeySet} (hw : w.Sound g) (h : w.Kept g) (hn : w.Listed n)
    (hfreeze : ∀ m, m ∈ freeze ↔ m ∈ w.freeze ∧ m ≠ n) (hspill : ∀ m, m ∈ spill → m ∈ w.spill) :
    Kept g (giveUpAll g { w with simplify := w.simplify.insert n, freeze, spill } n) := by
  generalize hw' : { w with simplify := w.simplify.insert n, freeze, spill } = w'
  have hlisted : ∀ {m}, w'.Listed m → w.Listed m := by
    subst hw'
    grind [Listed]
  have htended : w'.Tended g fun _ => False := by
    subst hw'
    exact ⟨h.tended.single, fun hm => h.tended.unmerged (hlisted hm), h.tended.own,
      fun hm => h.tended.held ((hfreeze _).mp hm).1⟩
  have hmeasured : w'.Measured [] (· ∈ w'.simplify) := by
    subst hw'
    refine ⟨h.measured.size, fun hm => h.measured.plain (hlisted hm),
      fun hm => h.measured.degree (hlisted hm), fun hm => h.measured.crowded (hspill _ hm), ?_⟩
    intro m hm hnot
    have hfrozen := ((hfreeze m).mp (hm.resolve_left hnot)).1
    exact h.measured.eased (.inr hfrozen) (not_simplify hw hfrozen)
  have hapart : ∀ m, m ∈ w'.freeze → m ∉ w'.simplify := by
    subst hw'
    grind [not_simplify hw]
  have hself : n ∉ w'.merged ∧ w'.rootOf n = n ∧ n ∉ w'.freeze := by
    subst hw'
    exact ⟨hw.not_merged (.inl hn), hw.rootOf_self (hw.not_merged (.inl hn)),
      fun hm => ((hfreeze n).mp hm).2 rfl⟩
  exact ⟨htended.giveUpAll hmeasured hapart hself.1 hself.2.1 hself.2.2,
    (hmeasured.giveUpAll n).mono fun m _ hm => (quiet_giveUpAll w').simplified hm⟩

theorem next? (hg : g.Regular) (hw : w.Sound g) (h : w.Kept g) (hnext : w.next? g = some w') :
    w'.Kept g := by
  have hsimplified {w₁ : Worklist} (heq : w₁ = w') (hm : w₁.Measured [] (· ∈ w.simplify)) :
      w'.Measured [] (· ∈ w'.simplify) :=
    heq ▸ hm.mono fun n hn hmem =>
      (heq ▸ advances_next? hg hw hnext : Advances g w w₁).simplified hg hw hmem hn
  unfold Worklist.next? at hnext
  split at hnext
  next n hn =>
    have heq := Option.some.inj hnext
    exact ⟨heq ▸ (h.tended.pushed n).tame (tame_select w n),
      hsimplified heq (h.measured.select hw (KeySet.mem_of_first? hn))⟩
  next id _ hid =>
    have heq := Option.some.inj hnext
    have hid := KeySet.mem_of_first? hid
    exact ⟨heq ▸ h.coalesce hg hw hid, hsimplified heq (h.measured.coalesce hg hw hid)⟩
  next n _ _ hn =>
    rw [← Option.some.inj hnext]
    refine h.release hw (.inr (.inl (KeySet.mem_of_first? hn))) (fun m => ?_) fun _ h => h
    exact KeySet.mem_erase
  next n _ _ hfreeze hn =>
    rw [← Option.some.inj hnext]
    have hn : n ∈ w.spill := (KeySet.mem_toList _ _).mp (mem_of_cheapest? hn)
    refine h.release hw (.inr (.inr hn)) (fun m => ?_) fun m hm => (KeySet.mem_erase.mp hm).1
    exact ⟨fun hm => absurd hm (KeySet.first?_eq_none hfreeze m), And.left⟩
  next => cases hnext

end Kept

theorem kept_start (hg : g.Regular) : (start g).Kept g := by
  refine ⟨?_, (exact_start hg).mono fun _ _ => False.elim⟩
  obtain ⟨simplify, freeze, spill, heq, _, _, hfree⟩ := start_spec g
  have hroot := rootOf_start g
  rw [heq] at hroot ⊢
  refine ⟨fun _ _ => KeySet.not_mem_empty, fun _ => KeySet.not_mem_empty, fun _ hid => ?_,
    fun hn _ => (hfree _).2 hn⟩
  simp only [hroot]
  exact hg.ends hid

end

/-- A stage is consistent: each register but the machine's is in one place, degrees count the
neighbours in the graph, the lists are those that degrees and copies ask for, and a copy that is
not settled is looked at or waits. Registers interfere both ways and not with themselves, and
chains of merges end in a register that was not merged. -/
structure Consistent (g : Interference) (w : Worklist) : Prop where
  somewhere (n : Nat) : [w.simplify, w.freeze, w.spill, w.selected, w.merged].countP (·.contains n) =
    if Vars.machineCount ≤ n ∧ n < g.size then 1 else 0
  degree {n : Nat} (h : w.Listed n) : w.degree.getD n 0 = (w.neighbours n).size
  simplify {n : Nat} (h : n ∈ w.simplify) : w.isCopyRelated n = false
  freeze {n : Nat} (h : n ∈ w.freeze) :
    w.degree.getD n 0 < paletteSize ∧ w.isCopyRelated n = true
  spill {n : Nat} (h : n ∈ w.spill) : paletteSize ≤ w.degree.getD n 0
  copies {id : Nat} (h : w.Unsettled id) : id < g.copies.size ∧ ¬ (id ∈ w.ready ∧ id ∈ w.active)
  bothWays : BothWays w.edges
  loopless : Loopless w.edges
  nodup (n : Nat) : (w.edges.getD n .empty).toList.Nodup
  chain {n : Nat} (h : n < g.size) :
    ∃ k, Leads w.parent k n (w.rootOf n) ∧ w.rootOf n < g.size ∧ w.rootOf n ∉ w.merged

theorem Kept.consistent {g : Interference} {w : Worklist} (hw : w.Sound g) (h : w.Kept g)
    (hseparates : w.Separates) : w.Consistent g where
  somewhere n := by
    have hsomewhere := hw.somewhere n
    have happart := hw.apart n
    have hselected := hw.not_selected (n := n)
    have hmerged := hw.not_merged (n := n)
    simp only [Listed] at hsomewhere hselected hmerged
    simp only [countP_cons, countP_nil]
    grind [KeySet.contains_iff_mem]
  degree hn := by
    rw [h.measured.degree hn, count_nil, around, KeySet.card_keys]
    rfl
  simplify hn := isCopyRelated_eq_false.mpr (hw.free (.inl hn))
  freeze hn := by
    refine ⟨h.measured.eased (.inr hn) (not_simplify hw hn), ?_⟩
    rw [← Bool.not_eq_false, isCopyRelated_eq_false]
    exact h.tended.held hn not_false
  spill := h.measured.crowded
  copies hid := ⟨hw.copies hid, fun hboth => h.tended.single _ hboth.1 hboth.2⟩
  bothWays := hw.bothWays
  loopless _ hn := hseparates.ne hn rfl
  nodup n := KeySet.nodup_toList _
  chain {n} hn := by
    obtain ⟨k, hleads, _⟩ := hw.leads_rootOf hn
    exact ⟨k, hleads, hw.rootOf_spec hn⟩

end Worklist

open Worklist

/-- The work on code whose jumps go to labels of it is consistent from the first stage to the
last, and in the last one all lists are empty. -/
theorem stages_consistent {code : List Instr} (returns : Bool) (hpresent : .absent ∉ code)
    (hdefined : ∀ l ∈ targets code, l ∈ labels code) :
    ∃ live g, analyze code returns = .ok live ∧ interference code live = g ∧
      (∀ k, (run g k (start g)).Consistent g) ∧ (final g).next? g = none ∧
      [(final g).simplify, (final g).ready, (final g).freeze, (final g).spill].all
        KeySet.isEmpty = true := by
  obtain ⟨live, hlive⟩ := exists_analyze returns hpresent hdefined
  refine ⟨live, _, hlive, rfl, ?_⟩
  have hg := (records_interference (analyze_solves hlive)).toRegular
  generalize interference code live = g at hg
  have hall (k : Nat) := run_induction hg (P := fun w => w.Kept g ∧ w.Separates)
    (fun hw hnext h => ⟨h.1.next? hg hw hnext, h.2.advances hw (advances_next? hg hw hnext)⟩)
    (sound_start hg) ⟨kept_start hg, separates_start hg⟩ k
  have hends : (final g).next? g = none := (hall (stages g)).2.2 (effort_start_le g)
  refine ⟨fun k => (hall k).2.1.1.consistent (hall k).1 (hall k).2.1.2, hends, ?_⟩
  obtain ⟨hlisted, hready⟩ := lists_empty_of_next? hends
  simp only [List.all_cons, List.all_nil, Bool.and_true, Bool.and_eq_true, KeySet.isEmpty_iff]
  exact ⟨fun n hn => hlisted n (.inl hn), hready, fun n hn => hlisted n (.inr (.inl hn)),
    fun n hn => hlisted n (.inr (.inr hn))⟩

theorem summing_consistent : ∃ live g, analyze summing true = .ok live ∧
    interference summing live = g ∧ (∀ k, (run g k (start g)).Consistent g) ∧
      (final g).next? g = none ∧
      [(final g).simplify, (final g).ready, (final g).freeze, (final g).spill].all
        KeySet.isEmpty = true :=
  stages_consistent true (by decide) (by decide)

end X64Backend.Alloc
