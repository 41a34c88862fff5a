import X64Backend.Proofs.Alloc.Coloring
import X64Backend.Proofs.Dataflow.Jobs

/-! # Registers that interfere get different colours

While both of two registers that interfere are in the graph, so do the registers that stand
for them. Once one of these is taken out it still knows the other, under the name that the
other had then, until it is coloured; so the one that is coloured later sees the colour of the
other and takes another one.
-/

namespace X64Backend.Alloc

open Asm Dataflow List

namespace Worklist

/-- A register interferes with one that another stands for. -/
def Meets (w : Worklist) (x y : Nat) : Prop := ∃ t, t ∈ w.edges.getD x .empty ∧ w.rootOf t = y

/-- What stands for two registers that interfere is different, and the one that was taken out
first knows the other. On the stack the last one taken out comes first. -/
structure Separates (w : Worklist) : Prop where
  ne {a b : Nat} (h : b ∈ w.edges.getD a .empty) : w.rootOf a ≠ w.rootOf b
  present {a b : Nat} (h : b ∈ w.edges.getD a .empty) (ha : w.rootOf a ∉ w.selected)
    (hb : w.rootOf b ∉ w.selected) : w.rootOf b ∈ w.edges.getD (w.rootOf a) .empty
  taken {a b : Nat} (h : b ∈ w.edges.getD a .empty) (ha : w.rootOf a ∈ w.selected)
    (hb : w.rootOf b ∉ w.selected ∨ [w.rootOf b, w.rootOf a].Sublist w.stack) :
    w.Meets (w.rootOf a) (w.rootOf b)

section

variable {g : Interference} {w w' : Worklist} {n u v : Nat}

theorem Sound.lt_of_mem_edges (hw : w.Sound g) {a b : Nat} (h : b ∈ w.edges.getD a .empty) :
    a < g.size ∧ b < g.size := by
  obtain ⟨hb, hback⟩ := hw.bothWays a b h
  obtain ⟨ha, _⟩ := hw.bothWays b a hback
  rw [hw.edges_size] at ha hb
  exact ⟨ha, hb⟩

theorem Sound.rootOf_rootOf (hw : w.Sound g) (hn : n < g.size) :
    w.rootOf (w.rootOf n) = w.rootOf n :=
  hw.rootOf_self (hw.rootOf_spec hn).2

theorem Separates.quiet (h : w.Separates) (hquiet : Quiet w w') (hedges : w'.edges = w.edges) :
    w'.Separates where
  ne hab := by
    rw [hquiet.rootOf, hquiet.rootOf]
    exact h.ne (hedges ▸ hab)
  present hab ha hb := by
    rw [hquiet.rootOf, hquiet.selected] at ha hb
    rw [hquiet.rootOf, hquiet.rootOf, hedges]
    exact h.present (hedges ▸ hab) ha hb
  taken hab ha hb := by
    rw [hquiet.rootOf, hquiet.selected] at ha
    rw [hquiet.rootOf, hquiet.rootOf, hquiet.selected, hquiet.stack] at hb
    obtain ⟨t, ht, hroot⟩ := h.taken (hedges ▸ hab) ha hb
    refine ⟨t, ?_, ?_⟩
    · rwa [hquiet.rootOf, hedges]
    · rw [hquiet.rootOf, hquiet.rootOf, hroot]

theorem sublist_pair_or {x y : Nat} {stack : List Nat} (hx : x ∈ stack) (hy : y ∈ stack)
    (hne : x ≠ y) : [y, x].Sublist stack ∨ [x, y].Sublist stack := by
  obtain ⟨newer, older, rfl⟩ := append_of_mem hx
  rcases mem_append.mp hy with hy | hy
  · exact .inl ((singleton_sublist.mpr hy).append (singleton_sublist.mpr (by simp)))
  · have hy := (mem_cons.mp hy).resolve_left hne.symm
    exact .inr (((singleton_sublist.mpr hy).cons_cons x).trans (sublist_append_right ..))

theorem sublist_pair_cons {x y : Nat} {stack : List Nat} (h : [y, x].Sublist (n :: stack)) :
    [y, x].Sublist stack ∨ y = n ∧ x ∈ stack := by
  cases h with
  | cons _ h => exact .inl h
  | cons_cons _ h => exact .inr ⟨rfl, singleton_sublist.mp h⟩

/-- A register that is taken out knows those in the graph that it interferes with. -/
theorem Separates.pushed (hw : w.Sound g) (h : w.Separates) (hn : n ∈ w.simplify) :
    (w.pushed n).Separates := by
  have hselected : ∀ m, m ∈ (w.pushed n).selected ↔ m ∈ w.selected ∨ m = n := fun m =>
    KeySet.mem_insert
  have hnew : n ∉ w.selected := hw.not_selected (.inl hn)
  have hstack : n ∉ w.stack := fun hmem => hnew ((hw.mem_stack n).mp hmem)
  refine ⟨h.ne, fun hab ha hb => ?_, fun {a b} hab ha hb => ?_⟩
  · rw [hselected, not_or] at ha hb
    exact h.present hab ha.1 hb.1
  · obtain ⟨_, hlt⟩ := hw.lt_of_mem_edges hab
    rw [hselected] at ha hb
    change w.rootOf a ∈ w.selected ∨ w.rootOf a = n at ha
    change ¬ (w.rootOf b ∈ w.selected ∨ w.rootOf b = n) ∨
      [w.rootOf b, w.rootOf a].Sublist (n :: w.stack) at hb
    change w.Meets (w.rootOf a) (w.rootOf b)
    rcases ha with ha | ha
    · apply h.taken hab ha
      rcases hb with hb | hb
      · exact .inl fun hmem => hb (.inl hmem)
      · grind
    · -- The register that is taken out now: only what stays in the graph is to be known.
      rcases hb with hb | hb
      · have hpresent := h.present hab (ha ▸ hnew) fun hmem => hb (.inl hmem)
        exact ⟨w.rootOf b, hpresent, hw.rootOf_rootOf hlt⟩
      · grind

theorem mem_partners (hv : Vars.isMachine v = false) {t : Nat} : t ∈ w.partners u v ↔
    t ∈ w.edges.getD v .empty ∧ t ∉ w.selected ∧ t ∉ w.merged ∧ t ≠ v := by
  simp only [partners, neighbours, hv, fused, KeySet.mem_diff, KeySet.mem_insert, not_or,
    Bool.false_eq_true, ↓reduceIte, and_assoc]

/-- Where a register is merged into another, what it interferes with in the graph interferes
with that other. -/
theorem Separates.fused (hw : w.Sound g) (h : w.Separates) (huv : Mergeable g w u v)
    (hquiet : Quiet (w.fused u v) w')
    (hedges : ∀ x y, x ∈ w'.edges.getD y .empty ↔ x ∈ w.edges.getD y .empty ∨
      x ≠ y ∧ (y ∈ w.partners u v ∧ x = u ∨ y = u ∧ x ∈ w.partners u v)) : w'.Separates := by
  have hroot : ∀ {m}, m < g.size → w'.rootOf m = if w.rootOf m = v then u else w.rootOf m :=
    fun hm => (hquiet.rootOf _).trans (hw.rootOf_fused huv hm)
  have hselected : w'.selected = w.selected := hquiet.selected
  have hstack : w'.stack = w.stack := hquiet.stack
  have hmachine : Vars.isMachine v = false := hw.not_machine (.inl huv.listed)
  have hv : v ∉ w.selected := hw.not_selected huv.listed
  have hu := huv.waiting.2
  -- The two registers themselves do not interfere, nor do any that they stand for.
  have hapart : v ∉ w.edges.getD u .empty := KeySet.contains_eq_false.mp huv.apart
  have hapart' : u ∉ w.edges.getD v .empty := fun hmem => hapart (hw.bothWays v u hmem).2
  -- A register in the graph that interferes with the merged one is a partner.
  have hpartner : ∀ {m}, m < g.size → w.rootOf m ∉ w.selected →
      w.rootOf m ∈ w.edges.getD v .empty → w.rootOf m ≠ v → w.rootOf m ∈ w.partners u v :=
    fun hm hsel hmem hne =>
      (mem_partners hmachine).mpr ⟨hmem, hsel, (hw.rootOf_spec hm).2, hne⟩
  -- Partners stand for themselves.
  have hself : ∀ {t}, t ∈ w.partners u v → w'.rootOf t = t ∧ t ∉ w.selected ∧ t ≠ u := by
    intro t ht
    obtain ⟨hmem, hsel, hmerged, hne⟩ := (mem_partners hmachine).mp ht
    have hlt := (hw.lt_of_mem_edges hmem).2
    refine ⟨?_, hsel, fun heq => hapart' (heq ▸ hmem)⟩
    rw [hroot hlt, hw.rootOf_self hmerged, if_neg hne]
  have huroot : w'.rootOf u = u := by
    rw [hroot huv.lt, hw.rootOf_self huv.kept, if_neg huv.ne]
  -- The old edges, by the registers that stand for their ends.
  have hold : ∀ {a b}, b ∈ w.edges.getD a .empty →
      w'.rootOf a ≠ w'.rootOf b ∧
      (w'.rootOf a ∉ w.selected → w'.rootOf b ∉ w.selected →
        w'.rootOf b ∈ w'.edges.getD (w'.rootOf a) .empty) := by
    intro a b hab
    obtain ⟨ha, hb⟩ := hw.lt_of_mem_edges hab
    have hne := h.ne hab
    rw [hroot ha, hroot hb]
    by_cases hav : w.rootOf a = v
    · have hbv : w.rootOf b ≠ v := fun heq => hne (hav.trans heq.symm)
      rw [if_pos hav, if_neg hbv]
      have hbu : w.rootOf b ≠ u := by
        intro heq
        have hmem := h.present hab (hav ▸ hv) (heq ▸ hu)
        rw [hav, heq] at hmem
        exact hapart' hmem
      refine ⟨hbu.symm, fun _ hbsel => ?_⟩
      have hmem := h.present hab (hav ▸ hv) hbsel
      rw [hav] at hmem
      exact (hedges _ _).mpr (.inr ⟨hbu, .inr ⟨rfl, hpartner hb hbsel hmem hbv⟩⟩)
    · rw [if_neg hav]
      by_cases hbv : w.rootOf b = v
      · rw [if_pos hbv]
        have hau : w.rootOf a ≠ u := by
          intro heq
          have hmem := h.present hab (heq ▸ hu) (hbv ▸ hv)
          rw [hbv, heq] at hmem
          exact hapart hmem
        refine ⟨hau, fun hasel _ => ?_⟩
        have hmem := h.present hab hasel (hbv ▸ hv)
        rw [hbv] at hmem
        have hmem' := (hw.bothWays _ _ hmem).2
        exact (hedges _ _).mpr (.inr ⟨hau.symm, .inl ⟨hpartner ha hasel hmem' hav, rfl⟩⟩)
      · rw [if_neg hbv]
        exact ⟨hne, fun hasel hbsel => (hedges _ _).mpr (.inl (h.present hab hasel hbsel))⟩
  refine ⟨fun hab => ?_, fun hab ha hb => ?_, fun {a b} hab ha hb => ?_⟩
  · rcases (hedges _ _).mp hab with hab | ⟨_, ⟨ht, rfl⟩ | ⟨rfl, ht⟩⟩
    · exact (hold hab).1
    · rw [(hself ht).1, huroot]
      exact (hself ht).2.2
    · rw [(hself ht).1, huroot]
      exact (hself ht).2.2.symm
  · rw [hselected] at ha hb
    rcases (hedges _ _).mp hab with hab | ⟨_, ⟨ht, rfl⟩ | ⟨rfl, ht⟩⟩
    · exact (hold hab).2 ha hb
    · rwa [(hself ht).1, huroot]
    · rwa [(hself ht).1, huroot]
  · rw [hselected] at ha hb
    rw [hstack] at hb
    rcases (hedges _ _).mp hab with hab | ⟨_, ⟨ht, _⟩ | ⟨rfl, _⟩⟩
    · obtain ⟨halt, hblt⟩ := hw.lt_of_mem_edges hab
      rw [hroot halt] at ha hb ⊢
      have hav : w.rootOf a ≠ v := by
        intro heq
        rw [if_pos heq] at ha
        exact hu ha
      rw [if_neg hav] at ha hb ⊢
      have hknown : w.Meets (w.rootOf a) (w.rootOf b) := by
        apply h.taken hab ha
        rw [hroot hblt] at hb
        by_cases hbv : w.rootOf b = v
        · exact .inl (hbv ▸ hv)
        · rwa [if_neg hbv] at hb
      obtain ⟨t, ht, htroot⟩ := hknown
      refine ⟨t, (hedges _ _).mpr (.inl ht), ?_⟩
      rw [hroot (hw.lt_of_mem_edges ht).2, htroot, hroot hblt]
    · rw [(hself ht).1] at ha
      exact absurd ha (hself ht).2.1
    · rw [huroot] at ha
      exact absurd ha hu

theorem Separates.advances (hw : w.Sound g) (h : w.Separates) (hadvances : Advances g w w') :
    w'.Separates := by
  cases hadvances with
  | quiet hquiet hedges _ => exact h.quiet hquiet hedges
  | select hn hquiet hedges => exact (h.pushed hw hn).quiet hquiet hedges
  | merge huv _ hquiet hedges => exact h.fused hw huv hquiet hedges

theorem separates_start (hg : g.Regular) : (start g).Separates := by
  obtain ⟨_, _, _, heq, _⟩ := start_spec g
  have hedges : (start g).edges = g.edges := by rw [heq]; rfl
  have hselected : (start g).selected = .empty := by rw [heq]; rfl
  refine ⟨fun hab => ?_, fun hab _ _ => ?_, fun _ ha _ => ?_⟩
  · rw [rootOf_start, rootOf_start]
    rintro rfl
    exact hg.loopless _ (hedges ▸ hab)
  · rwa [rootOf_start, rootOf_start]
  · rw [hselected] at ha
    exact absurd ha KeySet.not_mem_empty

/-- Registers that interfere at first do so in the end, and are separated. -/
theorem final_separates (hg : g.Regular) : (final g).Separates ∧
    ∀ a b, b ∈ g.edges.getD a .empty → b ∈ (final g).edges.getD a .empty := by
  refine (final_induction hg (P := fun w => w.Separates ∧
    ∀ a b, b ∈ g.edges.getD a .empty → b ∈ w.edges.getD a .empty) ?_ ?_).2.1
  · obtain ⟨_, _, _, heq, _⟩ := start_spec g
    exact ⟨separates_start hg, by rw [heq]; exact fun _ _ => id⟩
  · rintro w w' hw hnext ⟨hseparates, hedges⟩
    have hadvances := advances_next? hg hw hnext
    refine ⟨hseparates.advances hw hadvances, fun a b hab => ?_⟩
    cases hadvances with
    | quiet _ heq _ | select _ _ heq => exact heq ▸ hedges a b hab
    | merge _ _ _ heq => exact (heq b a).mpr (.inl (hedges a b hab))

end

end Worklist

namespace Coloring

variable {w : Worklist} {c : Coloring}

theorem mem_spilled_foldl {ns : List Nat} {n : Nat} (h : n ∈ c.spilled) :
    n ∈ (ns.foldl (assign w) c).spilled := by
  induction ns generalizing c with
  | nil => exact h
  | cons m ns ih =>
    grind [assign_cases, mem_cons_of_mem]

/-- A register takes no colour that what it knows has by then. -/
theorem color_ne_of_known {ns : List Nat} (hnodup : ns.Nodup) (hns : ∀ n ∈ ns, n < c.colors.size)
    {x t : Nat} {q : MachineReg} (hx : x ∈ ns) (hspilled : x ∉ (ns.foldl (assign w) c).spilled)
    (ht : t ∈ w.edges.getD x .empty) (hroot : w.rootOf t ∉ ns ∨ [w.rootOf t, x].Sublist ns)
    (hq : (ns.foldl (assign w) c).colors.getD (w.rootOf t) none = some q) :
    (ns.foldl (assign w) c).colors.getD x none ≠ some q := by
  induction ns generalizing c with
  | nil => cases hx
  | cons n ns ih =>
    obtain ⟨hn, hnodup⟩ := nodup_cons.mp hnodup
    have hlt := hns n mem_cons_self
    have hsize : ∀ m ∈ ns, m < (c.assign w n).colors.size := by
      intro m hm
      rcases assign_cases w c n with ⟨_, _, _, heq⟩ | heq
      · rw [heq, Array.size_setIfInBounds]
        exact hns m (mem_cons_of_mem n hm)
      · rw [heq]
        exact hns m (mem_cons_of_mem n hm)
    have hrest := foldl_assign (w := w) hsize
    rw [foldl_cons] at hspilled hq ⊢
    by_cases hxn : x = n
    · -- The register is coloured now, and what it knows has its colour already.
      subst hxn
      have hfar : w.rootOf t ∉ x :: ns := by
        grind
      obtain ⟨hne, hfar⟩ := ne_and_not_mem_of_not_mem_cons hfar
      rw [hrest.other hfar] at hq
      rw [hrest.other hn]
      rcases assign_cases w c x with ⟨r, _, hfree, heq⟩ | heq
      · rw [heq, getD_setIfInBounds _ _ hlt, if_neg (Ne.symm hne)] at hq
        rw [heq, getD_setIfInBounds _ _ hlt, if_pos rfl]
        rintro ⟨⟩
        refine hfree (mem_filterMap.mpr ⟨t, ?_, hq⟩)
        exact (KeySet.mem_toList _ t).mpr ht
      · refine absurd (mem_spilled_foldl ?_) hspilled
        rw [heq]
        exact mem_cons_self
    · have hx := (mem_cons.mp hx).resolve_left hxn
      refine ih hnodup hsize hx hspilled ?_ hq
      rcases hroot with hroot | hroot
      · exact .inl fun hmem => hroot (mem_cons_of_mem n hmem)
      · rcases Worklist.sublist_pair_cons hroot with hroot | ⟨heq, _⟩
        · exact .inr hroot
        · exact .inl (heq ▸ hn)

end Coloring

namespace Round

/-- What a round comes to: chains of merges end in registers that are the machine's, coloured
or spilled, machine registers have their own colours, and registers that interfere have
different ones unless what stands for one of them is spilled. -/
structure Proper (round : Round) (g : Interference) : Prop where
  settled {n : Nat} (hle : Vars.machineCount ≤ n) (hlt : n < g.size) :
    ∃ k r, Leads round.work.parent k n r ∧ (Vars.isMachine r = true ∨
      r ∈ round.coloring.spilled ∨ ∃ c ∈ palette, round.coloring.colors.getD r none = some c)
  own (q : MachineReg) : round.coloring.color? round.work q.index = some q
  apart {a b : Nat} (hedge : b ∈ g.edges.getD a .empty)
    (ha : round.work.rootOf a ∉ round.coloring.spilled)
    (hb : round.work.rootOf b ∉ round.coloring.spilled) :
    ∃ p q, round.coloring.color? round.work a = some p ∧
      round.coloring.color? round.work b = some q ∧ p ≠ q

variable {code : List Instr} {returns : Bool} {round : Round} {live : Liveness}

namespace Finds

variable (h : round.Finds live code returns)

include h

theorem separates : round.work.Separates ∧ ∀ a b,
    b ∈ (interference code live).edges.getD a .empty → b ∈ round.work.edges.getD a .empty := by
  rw [h.work]
  exact Worklist.final_separates (records_interference h.solves).toRegular

theorem leads_rootOf {n : Nat} (hn : n < live.vars.size) :
    ∃ k, Leads round.work.parent k n (round.work.rootOf n) := by
  rw [← h.size] at hn
  exact (h.sound.leads_rootOf hn).imp fun _ => And.left

theorem color_machine (q : MachineReg) : round.coloring.color? round.work q.index = some q := by
  have hindex := q.index.isLt
  have hmerged : (q.index : Nat) ∉ round.work.merged := by
    intro hmem
    have hle := ((h.sound.somewhere _).mp (.inr (.inr hmem))).1
    simp only [Vars.machineCount] at hle
    omega
  have hstack : (q.index : Nat) ∉ round.work.stack := by
    intro hmem
    have hle := (h.mem_stack hmem).1
    simp only [Vars.machineCount] at hle
    omega
  rw [Coloring.color?, h.sound.rootOf_self hmerged, h.assigns.other hstack, Coloring.getD_start]

/-- Of two registers that interfere the one that is coloured later avoids the colour of the
other. -/
theorem color_ne_of_later {a b : Nat} {q : MachineReg} (hedge : b ∈ round.work.edges.getD a .empty)
    (ha : round.work.rootOf a ∈ round.work.stack)
    (hspilled : round.work.rootOf a ∉ round.coloring.spilled)
    (hb : round.work.rootOf b ∉ round.work.stack ∨
      [round.work.rootOf b, round.work.rootOf a].Sublist round.work.stack)
    (hq : round.coloring.color? round.work b = some q) :
    round.coloring.color? round.work a ≠ some q := by
  have hmem := h.sound.mem_stack
  obtain ⟨t, ht, hroot⟩ := h.separates.1.taken hedge ((hmem _).mp ha)
    (hb.imp_left fun hnot hsel => hnot ((hmem _).mpr hsel))
  rw [Coloring.color?] at hq ⊢
  rw [← hroot] at hb hq
  rw [h.coloring, Coloring.ofWorklist] at hspilled hq ⊢
  refine Coloring.color_ne_of_known h.sound.nodup ?_ ha hspilled ht hb hq
  intro n hn
  rw [h.edges_size, Coloring.size_start (machineCount_le_size h.solves)]
  exact (h.mem_stack hn).2

theorem proper : round.Proper (interference code live) where
  settled {n} _ hlt := by
    rw [h.size] at hlt
    obtain ⟨k, hleads⟩ := h.leads_rootOf hlt
    refine ⟨k, _, hleads, ?_⟩
    rcases h.root_cases hlt with ⟨q, hq, _⟩ | ⟨_, hroot⟩
    · rw [hq]
      exact .inl (decide_eq_true q.index.isLt)
    · exact .inr hroot
  own := h.color_machine
  apart {a b} hedge ha hb := by
    have hedge := h.separates.2 a b hedge
    have hback := (h.sound.bothWays a b hedge).2
    obtain ⟨halt, hblt⟩ := h.sound.lt_of_mem_edges hedge
    rw [h.size] at halt hblt
    have hne := h.separates.1.ne hedge
    have hmachine : ∀ q : MachineReg, (q.index : Nat) ∉ round.work.stack := by
      intro q hmem
      have hle := (h.mem_stack hmem).1
      have hindex := q.index.isLt
      simp only [Vars.machineCount] at hle
      omega
    rcases h.root_cases halt with ⟨p, hp, hcolor⟩ | ⟨hastack, hroot⟩
    · rcases h.root_cases hblt with ⟨q, hq, hcolor'⟩ | ⟨hbstack, hroot'⟩
      · refine ⟨p, q, hcolor, hcolor', ?_⟩
        rintro rfl
        exact hne (hp.trans hq.symm)
      · grind [hroot'.resolve_left, h.color_ne_of_later]
    · obtain ⟨p, _, hcolor⟩ := hroot.resolve_left ha
      rcases h.root_cases hblt with ⟨q, hq, hcolor'⟩ | ⟨hbstack, hroot'⟩
      · grind [h.color_ne_of_later]
      · obtain ⟨q, _, hcolor'⟩ := hroot'.resolve_left hb
        refine ⟨p, q, hcolor, hcolor', ?_⟩
        rintro rfl
        rcases Worklist.sublist_pair_or hastack hbstack hne with horder | horder
        · exact h.color_ne_of_later hedge hastack ha (.inr horder) hcolor' hcolor
        · exact h.color_ne_of_later hback hbstack hb (.inr horder) hcolor hcolor'

end Finds

/-- A round runs on all code whose jumps go to labels of it, and its colouring is proper. -/
theorem ofCode_proper (returns : Bool) (hpresent : .absent ∉ code)
    (hdefined : ∀ l ∈ targets code, l ∈ labels code) :
    ∃ live round, analyze code returns = .ok live ∧ Round.ofCode returns code = .ok round ∧
      round.vars = live.vars ∧ round.Proper (interference code live) := by
  obtain ⟨live, hlive⟩ := exists_analyze returns hpresent hdefined
  have hround : ∃ round, Round.ofCode returns code = .ok round ∧
      round.Finds live code returns :=
    ⟨_, bind_eq_ok.mpr ⟨live, hlive, rfl⟩, analyze_solves hlive, rfl, rfl, rfl⟩
  obtain ⟨round, hround, hfinds⟩ := hround
  exact ⟨live, round, hlive, hround, hfinds.vars, hfinds.proper⟩

theorem summing_proper : ∃ live round, analyze summing true = .ok live ∧
    Round.ofCode true summing = .ok round ∧ round.vars = live.vars ∧
      round.Proper (interference summing live) :=
  ofCode_proper true (by decide) (by decide)

end Round

end X64Backend.Alloc
