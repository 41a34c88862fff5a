import X64Backend.Alloc.Worklist
import X64Backend.Proofs.Dataflow.Live
import X64Backend.Proofs.KeySets

/-! # The work gets done

Every register that is not the machine's waits on one list, was taken out, or was merged.
Most of what a stage does moves registers from list to list and settles copies; only taking a
register out and merging one do more. From that follow what holds at every stage, and that
the stages do not run out before the lists are empty.
-/

namespace X64Backend

namespace Alloc

open Asm Dataflow List

/-! ## Chains of merges -/

/-- A register is as many merges away from the one that stands for it. -/
inductive Leads (parent : Array Nat) : Nat → Nat → Nat → Prop
  | here {n : Nat} (h : parent.getD n n = n) : Leads parent 0 n n
  | up {k n r : Nat} (hne : parent.getD n n ≠ n) (h : Leads parent k (parent.getD n n) r) :
      Leads parent (k + 1) n r

section

variable {parent : Array Nat} {k n r u v : Nat}

/-- The chain is followed to its end if there is fuel for its merges. -/
theorem Leads.root_eq (h : Leads parent k n r) {fuel : Nat} (hk : k ≤ fuel) :
    root parent fuel n = r := by
  induction h generalizing fuel with
  | here h =>
    cases fuel with
    | zero => rfl
    | succ fuel => simp only [root, if_pos h]
  | up hne _ ih =>
    cases fuel with
    | zero => omega
    | succ fuel =>
      simp only [root, if_neg hne]
      exact ih (by omega)

theorem Leads.parent_end (h : Leads parent k n r) : parent.getD r r = r := by
  induction h with
  | here h => exact h
  | up _ _ ih => exact ih

/-- Where one end of a chain is merged into another, the chains that led to it lead to that
other. -/
theorem Leads.merge (h : Leads parent k n r) (hv : v < parent.size) (huv : u ≠ v)
    (hu : parent.getD u u = u) (hv' : parent.getD v v = v) :
    if r = v then Leads (parent.setIfInBounds v u) (k + 1) n u
    else Leads (parent.setIfInBounds v u) k n r := by
  have hget (m : Nat) : (parent.setIfInBounds v u).getD m m = if v = m then u else parent.getD m m :=
    getD_setIfInBounds u m hv
  have hroot : Leads (parent.setIfInBounds v u) 0 u u :=
    .here (by rw [hget, if_neg huv.symm, hu])
  induction h with
  | @here n h =>
    split
    next heq =>
      subst heq
      have hself : (parent.setIfInBounds n u).getD n n = u := (hget n).trans (if_pos rfl)
      refine .up ?_ ?_
      · rw [hself]
        exact huv
      · rw [hself]
        exact hroot
    next hne => exact .here (by rw [hget, if_neg (Ne.symm hne), h])
  | @up k n r hne hrest ih =>
    -- `v` is not on the way: it is the end of its own chain.
    have hnv : n ≠ v := by
      rintro rfl
      exact hne hv'
    have hsame := (hget n).trans (if_neg hnv.symm)
    rw [← hsame] at hne ih
    split
    next heq =>
      rw [if_pos heq] at ih
      exact .up hne ih
    next hne' =>
      rw [if_neg hne'] at ih
      exact .up hne ih

end

namespace Worklist

variable {w : Worklist} {edges : Array KeySet} {u v x y : Nat}

/-! ## Quiet changes -/

/-- A register waits on a list. -/
def Listed (w : Worklist) (n : Nat) : Prop := n ∈ w.simplify ∨ n ∈ w.freeze ∨ n ∈ w.spill

/-- A copy is not settled yet. -/
def Unsettled (w : Worklist) (id : Nat) : Prop := id ∈ w.ready ∨ id ∈ w.active

/-- The copies of a register are all settled. -/
def Free (w : Worklist) (n : Nat) : Prop :=
  ∀ id, id ∈ w.copyLists.getD n .empty → ¬ w.Unsettled id

/-- No register waits on two lists. -/
def Apart (w : Worklist) : Prop :=
  ∀ n, (n ∈ w.simplify → n ∉ w.freeze ∧ n ∉ w.spill) ∧ (n ∈ w.freeze → n ∉ w.spill)

/-- Interference goes both ways. -/
def BothWays (edges : Array KeySet) : Prop :=
  ∀ u v, v ∈ edges.getD u .empty → v < edges.size ∧ u ∈ edges.getD v .empty

/-- No register interferes with itself. -/
def Loopless (edges : Array KeySet) : Prop := ∀ u, u ∉ edges.getD u .empty

theorem isCopyRelated_eq_false {n : Nat} : w.isCopyRelated n = false ↔ w.Free n := by
  unfold isCopyRelated pending
  rw [Bool.not_eq_false', KeySet.isEmpty_iff]
  simp [Free, Unsettled]

/-- A change that takes no register out and merges none. Registers go from list to list, and
to be taken out only without unsettled copies; copies are settled; more registers
interfere. -/
structure Quiet (w w' : Worklist) : Prop where
  parent : w'.parent = w.parent
  copyLists : w'.copyLists = w.copyLists
  stack : w'.stack = w.stack
  selected : w'.selected = w.selected
  merged : w'.merged = w.merged
  unsettled {id : Nat} (h : w'.Unsettled id) : w.Unsettled id
  listed (n : Nat) : w'.Listed n ↔ w.Listed n
  apart (h : w.Apart) : w'.Apart
  simplify {n : Nat} (h : n ∈ w'.simplify) : n ∈ w.simplify ∨ w'.Free n
  simplified {n : Nat} (h : n ∈ w.simplify) : n ∈ w'.simplify
  size : w'.edges.size = w.edges.size
  edges {u v : Nat} (h : w.interfere u v = true) : w'.interfere u v = true
  bothWays (h : BothWays w.edges) : BothWays w'.edges

namespace Quiet

variable {w w' w'' : Worklist}

theorem refl (w : Worklist) : Quiet w w where
  parent := rfl
  copyLists := rfl
  stack := rfl
  selected := rfl
  merged := rfl
  unsettled h := h
  listed _ := Iff.rfl
  apart h := h
  simplify h := .inl h
  simplified h := h
  size := rfl
  edges h := h
  bothWays h := h

theorem free (h : Quiet w w') {n : Nat} (hn : w.Free n) : w'.Free n := by
  intro id hid hu
  rw [h.copyLists] at hid
  exact hn id hid (h.unsettled hu)

theorem trans (h : Quiet w w') (h' : Quiet w' w'') : Quiet w w'' where
  parent := h'.parent.trans h.parent
  copyLists := h'.copyLists.trans h.copyLists
  stack := h'.stack.trans h.stack
  selected := h'.selected.trans h.selected
  merged := h'.merged.trans h.merged
  unsettled hu := h.unsettled (h'.unsettled hu)
  listed n := (h'.listed n).trans (h.listed n)
  apart ha := h'.apart (h.apart ha)
  simplify hn := by
    rcases h'.simplify hn with hn | hn
    · exact (h.simplify hn).imp_right h'.free
    · exact .inr hn
  simplified hn := h'.simplified (h.simplified hn)
  size := h'.size.trans h.size
  edges he := h'.edges (h.edges he)
  bothWays hm := h'.bothWays (h.bothWays hm)

end Quiet

/-- A change that is made of changes of a kind is of that kind. -/
theorem foldl_changes {R : Worklist → Worklist → Prop} (hrefl : ∀ w, R w w)
    (htrans : ∀ {w w' w''}, R w w' → R w' w'' → R w w'') {f : Worklist → Nat → Worklist}
    {ns : List Nat} (hf : ∀ w', R w w' → ∀ n ∈ ns, R w' (f w' n)) : R w (ns.foldl f w) := by
  suffices h : ∀ w', R w w' → R w' (ns.foldl f w') from h w (hrefl w)
  induction ns with
  | nil => exact fun w' _ => hrefl w'
  | cons n ns ih =>
    intro w' h
    have hstep := hf w' h n mem_cons_self
    refine htrans hstep (ih ?_ _ (htrans h hstep))
    exact fun w'' h'' m hm => hf w'' h'' m (mem_cons_of_mem n hm)

/-- A quiet change that settles no copy. Copies may get ready again, and only registers with
unsettled copies begin to wait for them. -/
structure Tame (w w' : Worklist) : Prop extends Quiet w w' where
  kept {id : Nat} (h : w.Unsettled id) : w'.Unsettled id
  single (h : ∀ id, id ∈ w.ready → id ∉ w.active) (id : Nat) : id ∈ w'.ready → id ∉ w'.active
  frozen {n : Nat} (h : n ∈ w'.freeze) : n ∈ w.freeze ∨ ¬ w'.Free n

namespace Tame

variable {w w' w'' : Worklist}

theorem refl (w : Worklist) : Tame w w := { Quiet.refl w with kept := id, single := id, frozen := .inl }

theorem free_iff (h : Tame w w') {n : Nat} : w'.Free n ↔ w.Free n := by
  refine ⟨fun hn id hid hu => hn id ?_ (h.kept hu), h.toQuiet.free⟩
  rwa [h.copyLists]

theorem trans (h : Tame w w') (h' : Tame w' w'') : Tame w w'' where
  toQuiet := h.toQuiet.trans h'.toQuiet
  kept hu := h'.kept (h.kept hu)
  single hs := h'.single (h.single hs)
  frozen hn := by
    rcases h'.frozen hn with hn | hn
    · rw [h'.free_iff]
      exact h.frozen hn
    · exact .inr hn

end Tame

section

variable (w : Worklist) (n u v : Nat)

theorem tame_enableCopies : Tame w (w.enableCopies n) := by
  have hunsettled : ∀ id, (w.enableCopies n).Unsettled id ↔ w.Unsettled id := by
    intro id
    simp only [Unsettled, enableCopies, KeySet.mem_union, KeySet.mem_inter, KeySet.mem_diff]
    tauto
  exact {
    Quiet.refl w with
    unsettled := (hunsettled _).mp
    simplify := .inl
    kept := (hunsettled _).mpr
    single := fun h id => by
      simp only [enableCopies, KeySet.mem_union, KeySet.mem_inter, KeySet.mem_diff]
      grind
    frozen := .inl }

/-- Registers may go to other lists. -/
theorem tame_lists {simplify freeze spill : KeySet}
    (listed : ∀ n, n ∈ simplify ∨ n ∈ freeze ∨ n ∈ spill ↔ w.Listed n)
    (apart : w.Apart →
      ∀ n, (n ∈ simplify → n ∉ freeze ∧ n ∉ spill) ∧ (n ∈ freeze → n ∉ spill))
    (hfree : ∀ n, n ∈ simplify → n ∈ w.simplify ∨ w.Free n)
    (hkeeps : ∀ n, n ∈ w.simplify → n ∈ simplify)
    (hfrozen : ∀ n, n ∈ freeze → n ∈ w.freeze ∨ ¬ w.Free n) :
    Tame w { w with simplify, freeze, spill } where
  __ := Tame.refl w
  listed := listed
  apart := apart
  simplify := hfree _
  simplified := hkeeps _
  frozen := hfrozen _

theorem tame_degree (degree : Array Nat) : Tame w { w with degree } where
  __ := Tame.refl w
  simplify h := .inl h
  frozen h := .inl h

/-- A register that leaves the crowded is placed where it belongs. -/
theorem tame_place (hn : n ∈ w.spill) : Tame w ({ w with spill := w.spill.erase n }.place n) := by
  have hrelated : isCopyRelated { w with spill := w.spill.erase n } n = false ↔ w.Free n :=
    isCopyRelated_eq_false
  unfold place
  split
  next =>
    exact tame_lists _ (by grind [Listed]) (by grind [Apart]) (fun _ => .inl) (fun _ => id)
      fun _ => .inl
  next =>
    split
    next =>
      exact tame_lists _ (by grind [Listed]) (by grind [Apart]) (fun _ => .inl) (fun _ => id)
        (by grind)
    next =>
      exact tame_lists _ (by grind [Listed]) (by grind [Apart]) (by grind) (by grind) fun _ => .inl

theorem tame_lowerDegree : Tame w (w.lowerDegree n) := by
  unfold lowerDegree
  split
  next => exact .refl w
  next =>
    dsimp only
    split
    next => exact tame_degree w _
    next =>
      have hdegree := tame_degree w (w.degree.setIfInBounds n (w.degree.getD n 0 - 1))
      generalize { w with degree := w.degree.setIfInBounds n (w.degree.getD n 0 - 1) } = w₁
        at hdegree ⊢
      have henabled : Tame w₁ ((w₁.neighbours n).toList.foldl enableCopies (w₁.enableCopies n)) :=
        (tame_enableCopies w₁ n).trans
          (foldl_changes .refl .trans fun w' _ m _ => tame_enableCopies w' m)
      generalize (w₁.neighbours n).toList.foldl enableCopies (w₁.enableCopies n) = w₂
        at henabled ⊢
      refine (hdegree.trans henabled).trans ?_
      split
      next h => exact tame_place w₂ n h
      next => exact .refl w₂

theorem tame_relax : Tame w (w.relax n) := by
  unfold relax
  split
  next h =>
    simp only [Bool.and_eq_true, Bool.not_eq_true', KeySet.contains_iff_mem] at h
    obtain ⟨⟨_, hrelated⟩, hn⟩ := h
    have hfree : w.Free n := isCopyRelated_eq_false.mp hrelated
    exact tame_lists _ (by grind [Listed]) (by grind [Apart]) (by grind) (by grind) (by grind)
  next => exact .refl w

@[simp] theorem ready_relax : (w.relax n).ready = w.ready := by
  unfold relax
  split <;> rfl

@[simp] theorem edges_enableCopies : (w.enableCopies n).edges = w.edges := rfl

theorem edges_foldl {f : Worklist → Nat → Worklist} (hf : ∀ w n, (f w n).edges = w.edges)
    (ns : List Nat) : (ns.foldl f w).edges = w.edges := by
  induction ns generalizing w with
  | nil => rfl
  | cons n ns ih => rw [foldl_cons, ih, hf]

@[simp] theorem edges_place : (w.place n).edges = w.edges := by
  unfold place
  split
  · rfl
  · split <;> rfl

@[simp] theorem edges_lowerDegree : (w.lowerDegree n).edges = w.edges := by
  unfold lowerDegree
  split
  · rfl
  · dsimp only
    split
    · rfl
    · grind [edges_place, edges_foldl, edges_enableCopies]

@[simp] theorem edges_relax : (w.relax n).edges = w.edges := by
  unfold relax
  split <;> rfl

@[simp] theorem edges_raiseDegree : (w.raiseDegree n).edges = w.edges := by
  unfold raiseDegree
  split <;> rfl

@[simp] theorem edges_select : (w.select n).edges = w.edges := by
  unfold select
  rw [edges_foldl _ edges_lowerDegree]

theorem tame_raiseDegree : Tame w (w.raiseDegree n) := by
  unfold raiseDegree
  split
  next => exact .refl w
  next => exact tame_degree w _

end

/-! ## Joining -/

theorem getD_modify {α : Type} (xs : Array α) (i j : Nat) (f : α → α) (d : α) :
    (xs.modify i f).getD j d = if i = j ∧ j < xs.size then f (xs.getD j d) else xs.getD j d := by
  by_cases hj : j < xs.size
  · by_cases hij : i = j
    · simp [Array.getD, hj, hij, Array.getElem_modify]
    · simp [Array.getD, hj, hij, Array.getElem_modify]
  · simp [Array.getD, hj]

theorem size_joined (edges : Array KeySet) (u v : Nat) : (joined edges u v).size = edges.size := by
  unfold joined
  split
  next => rfl
  next => rw [Array.size_modify, Array.size_modify]

/-- What two registers that are joined interfere with. -/
theorem mem_getD_joined (hu : u < edges.size) (hv : v < edges.size) :
    x ∈ (joined edges u v).getD y .empty ↔
      x ∈ edges.getD y .empty ∨ u ≠ v ∧ (y = u ∧ x = v ∨ y = v ∧ x = u) := by
  unfold joined
  split
  next heq => simp [heq]
  next hne =>
    rw [getD_modify, getD_modify, Array.size_modify]
    have hvu : ¬ v = u := fun h => hne h.symm
    by_cases hyu : u = y
    · subst hyu
      simp [hu, hvu, hne]
    · grind

theorem BothWays.joined (h : BothWays edges) (hu : u < edges.size) (hv : v < edges.size) :
    BothWays (joined edges u v) := by
  intro y x hx
  rw [mem_getD_joined hu hv] at hx
  rw [mem_getD_joined hu hv, size_joined]
  rcases hx with hx | ⟨hne, ⟨rfl, rfl⟩ | ⟨rfl, rfl⟩⟩
  · exact ⟨(h y x hx).1, .inl (h y x hx).2⟩
  · exact ⟨hv, .inr ⟨hne, .inr ⟨rfl, rfl⟩⟩⟩
  · exact ⟨hu, .inr ⟨hne, .inl ⟨rfl, rfl⟩⟩⟩

theorem Loopless.joined (h : Loopless edges) (hu : u < edges.size) (hv : v < edges.size) :
    Loopless (joined edges u v) := by
  intro x hx
  rw [mem_getD_joined hu hv] at hx
  rcases hx with hx | ⟨hne, ⟨rfl, heq⟩ | ⟨rfl, heq⟩⟩
  · exact h x hx
  · exact hne heq
  · exact hne heq.symm

theorem tame_join (hu : u < w.edges.size) (hv : v < w.edges.size) : Tame w (w.join u v) := by
  unfold join
  split
  next => exact .refl w
  next =>
    refine Tame.trans ?_ ((tame_raiseDegree _ u).trans (tame_raiseDegree _ v))
    exact {
      Tame.refl w with
      simplify := .inl
      frozen := .inl
      size := size_joined w.edges u v
      edges := fun h => (mem_getD_joined hu hv).mpr (.inl h)
      bothWays := fun h => h.joined hu hv }

/-! ## Registers leave the graph -/

/-- A register is taken out. -/
def pushed (w : Worklist) (n : Nat) : Worklist :=
  { w with
    simplify := w.simplify.erase n
    selected := w.selected.insert n
    stack := n :: w.stack }

/-- A register is merged into another, with its copies but not yet with its neighbours. -/
def fused (w : Worklist) (u v : Nat) : Worklist :=
  { w with
    simplify := w.simplify.erase v
    freeze := w.freeze.erase v
    spill := w.spill.erase v
    merged := w.merged.insert v
    parent := w.parent.setIfInBounds v u
    copyLists := w.copyLists.modify u (·.union (w.copyLists.getD v .empty)) }

theorem tame_select (w : Worklist) (n : Nat) : Tame (w.pushed n) (w.select n) :=
  foldl_changes .refl .trans fun w' _ m _ => tame_lowerDegree w' m

theorem mem_neighbours {n t : Nat} (h : t ∈ w.neighbours n) : t ∈ w.edges.getD n .empty := by
  grind [neighbours, KeySet.not_mem_empty, KeySet.mem_diff]

/-- A register's neighbours are joined with another register, and have one neighbour less. -/
theorem tame_joinAll {ts : List Nat} (hu : u < w.edges.size) (hts : ∀ t ∈ ts, t < w.edges.size) :
    Tame w (ts.foldl (fun w t => (w.join t u).lowerDegree t) w) := by
  apply foldl_changes .refl .trans
  intro w' h t ht
  have hjoin : Tame w' (w'.join t u) := tame_join (h.size ▸ hts t ht) (h.size ▸ hu)
  exact hjoin.trans (tame_lowerDegree _ t)

/-- What registers interfere with when two were joined. -/
theorem mem_edges_join (hways : BothWays w.edges) (hu : u < w.edges.size) (hv : v < w.edges.size) :
    x ∈ (w.join u v).edges.getD y .empty ↔
      x ∈ w.edges.getD y .empty ∨ u ≠ v ∧ (y = u ∧ x = v ∨ y = v ∧ x = u) := by
  unfold join
  split
  next h =>
    rw [Bool.or_eq_true, decide_eq_true_eq] at h
    constructor
    · exact .inl
    · rintro (hx | ⟨hne, hends⟩)
      · exact hx
      · have hvu : v ∈ w.edges.getD u .empty := h.resolve_left hne
        rcases hends with ⟨rfl, rfl⟩ | ⟨rfl, rfl⟩
        · exact hvu
        · exact (hways x y hvu).2
  next =>
    rw [edges_raiseDegree, edges_raiseDegree]
    exact mem_getD_joined hu hv

theorem mem_edges_joinAll {ts : List Nat} (hways : BothWays w.edges) (hu : u < w.edges.size)
    (hts : ∀ t ∈ ts, t < w.edges.size) :
    x ∈ (ts.foldl (fun w t => (w.join t u).lowerDegree t) w).edges.getD y .empty ↔
      x ∈ w.edges.getD y .empty ∨ x ≠ y ∧ (y ∈ ts ∧ x = u ∨ y = u ∧ x ∈ ts) := by
  induction ts generalizing w with
  | nil => simp
  | cons t ts ih =>
    have ht := hts t mem_cons_self
    have hquiet := ((tame_join ht hu).trans (tame_lowerDegree _ t)).toQuiet
    have hrest := ih (hquiet.bothWays hways) (by rwa [hquiet.size])
      (fun s hs => by
        rw [hquiet.size]
        exact hts s (mem_cons_of_mem t hs))
    rw [foldl_cons, hrest, edges_lowerDegree, mem_edges_join hways ht hu]
    simp only [mem_cons]
    grind

/-- The neighbours that a register has when it is merged into another. -/
def partners (w : Worklist) (u v : Nat) : KeySet := (w.fused u v).neighbours v

/-- Merging a register joins its neighbours with the other and is quiet beyond that. -/
theorem merge_spec (hu : u < w.edges.size) (hways : BothWays w.edges) :
    Tame (w.fused u v) (w.merge u v) ∧
      ∀ x y, x ∈ (w.merge u v).edges.getD y .empty ↔ x ∈ w.edges.getD y .empty ∨
        x ≠ y ∧ (y ∈ w.partners u v ∧ x = u ∨ y = u ∧ x ∈ w.partners u v) := by
  have henabled := tame_enableCopies (w.fused u v) v
  have hts : ∀ t ∈ (w.partners u v).toList, t < w.edges.size := fun t ht =>
    (hways v t (mem_neighbours (w := w.fused u v) ((KeySet.mem_toList _ t).mp ht))).1
  have hjoined := tame_joinAll (w := (w.fused u v).enableCopies v) hu hts
  have htail : ∀ w' : Worklist, Tame w' (if w'.freeze.contains u && w'.isCrowded u then
      { w' with freeze := w'.freeze.erase u, spill := w'.spill.insert u } else w') := by
    intro w'
    split
    next h =>
      rw [Bool.and_eq_true, KeySet.contains_iff_mem] at h
      obtain ⟨hu, _⟩ := h
      exact tame_lists _ (by grind [Listed]) (by grind [Apart]) (fun _ => .inl) (fun _ => id)
        (by grind)
    next => exact .refl w'
  have hedges : ∀ w' : Worklist, (if w'.freeze.contains u && w'.isCrowded u then
      { w' with freeze := w'.freeze.erase u, spill := w'.spill.insert u } else w').edges =
        w'.edges := by
    intro w'
    split <;> rfl
  refine ⟨(henabled.trans hjoined).trans (htail _), fun x y => ?_⟩
  have hall := mem_edges_joinAll (w := (w.fused u v).enableCopies v) (x := x) (y := y) hways hu hts
  rw [KeySet.mem_toList, KeySet.mem_toList, KeySet.contains_iff_mem,
    KeySet.contains_iff_mem] at hall
  refine Iff.trans ?_ hall
  rw [merge, hedges]
  rfl

/-! ## Giving copies up -/

section

variable {g : Interference} {n : Nat}
variable {w : Worklist}

theorem quiet_settle (w : Worklist) (ready active : KeySet)
    (h : ∀ id, id ∈ ready ∨ id ∈ active → w.Unsettled id) : Quiet w { w with ready, active } where
  __ := Quiet.refl w
  unsettled := h _
  simplify := .inl

theorem quiet_look (w : Worklist) (id : Nat) : Quiet w { w with ready := w.ready.erase id } :=
  quiet_settle w _ w.active fun _ h => h.imp_left fun h => (KeySet.mem_erase.mp h).1

theorem quiet_giveUp (w : Worklist) (id : Nat) : Quiet w (giveUp g n w id) := by
  refine Quiet.trans (quiet_settle w _ _ ?_) (tame_relax _ _).toQuiet
  intro j hj
  exact hj.imp (fun h => (KeySet.mem_erase.mp h).1) fun h => (KeySet.mem_erase.mp h).1

theorem not_unsettled_giveUp (w : Worklist) (id : Nat) : ¬ (giveUp g n w id).Unsettled id := by
  intro h
  have h' : id ∈ w.ready.erase id ∨ id ∈ w.active.erase id := (tame_relax _ _).unsettled h
  simp at h'

theorem not_unsettled_foldl_giveUp {ids : List Nat} {id : Nat} (hid : id ∈ ids) (w : Worklist) :
    ¬ (ids.foldl (giveUp g n) w).Unsettled id := by
  induction ids generalizing w with
  | nil => exact absurd hid not_mem_nil
  | cons j ids ih =>
    rcases mem_cons.mp hid with rfl | hid
    · intro h
      have hrest : Quiet (giveUp g n w id) (ids.foldl (giveUp g n) (giveUp g n w id)) :=
        foldl_changes .refl .trans fun w' _ j _ => quiet_giveUp w' j
      exact not_unsettled_giveUp w id (hrest.unsettled h)
    · exact ih hid _

theorem quiet_giveUpAll (w : Worklist) : Quiet w (w.giveUpAll g n) :=
  foldl_changes .refl .trans fun w' _ id _ => quiet_giveUp w' id

theorem edges_giveUpAll (w : Worklist) : (w.giveUpAll g n).edges = w.edges := by
  unfold giveUpAll
  exact edges_foldl w (fun w id => by rw [giveUp, edges_relax]) _

theorem ready_giveUpAll (w : Worklist) {id : Nat} (h : id ∈ (w.giveUpAll g n).ready) :
    id ∈ w.ready := by
  unfold giveUpAll at h
  generalize (w.pending n).toList = ids at h
  induction ids generalizing w with
  | nil => exact h
  | cons j ids ih =>
    have hstep := ih _ h
    simp only [giveUp, ready_relax] at hstep
    exact (KeySet.mem_erase.mp hstep).1

/-- Once its copies are given up a register is free. -/
theorem free_giveUpAll (w : Worklist) : (w.giveUpAll g n).Free n := by
  intro id hid hunsettled
  rw [(quiet_giveUpAll w).copyLists] at hid
  have hpending : id ∈ w.pending n := by
    simp only [pending, KeySet.mem_inter, KeySet.mem_union]
    exact ⟨hid, (quiet_giveUpAll w).unsettled hunsettled⟩
  exact not_unsettled_foldl_giveUp ((KeySet.mem_toList _ id).mpr hpending) w hunsettled

/-- A register whose copies are given up may be taken out. -/
theorem quiet_release {freeze spill : KeySet}
    (listed : ∀ m, m ∈ w.simplify.insert n ∨ m ∈ freeze ∨ m ∈ spill ↔ w.Listed m)
    (apart : w.Apart → ∀ m, (m ∈ w.simplify.insert n → m ∉ freeze ∧ m ∉ spill) ∧
      (m ∈ freeze → m ∉ spill)) :
    Quiet w (giveUpAll g { w with simplify := w.simplify.insert n, freeze, spill } n) := by
  generalize hw : { w with simplify := w.simplify.insert n, freeze, spill } = w₁
  have hquiet := quiet_giveUpAll (g := g) (n := n) w₁
  have hfree := free_giveUpAll (g := g) (n := n) w₁
  generalize giveUpAll g w₁ n = w' at hquiet hfree ⊢
  subst hw
  exact {
    hquiet with
    listed := fun m => (hquiet.listed m).trans (listed m)
    apart := fun h => hquiet.apart (apart h)
    simplify := fun hm => by
      rcases hquiet.simplify hm with hm | hm
      · rcases KeySet.mem_insert.mp hm with hm | rfl
        · exact .inl hm
        · exact .inr hfree
      · exact .inr hm
    simplified := fun hm => hquiet.simplified (KeySet.mem_insert.mpr (.inl hm)) }

theorem quiet_thaw (hn : n ∈ w.freeze) : Quiet w (w.thaw g n) :=
  quiet_release (by grind [Listed]) (by grind [Apart])

theorem quiet_sacrifice (hn : n ∈ w.spill) : Quiet w (w.sacrifice g n) :=
  quiet_release (by grind [Listed]) (by grind [Apart])

end

end Worklist

/-! ## Sound stages -/

/-- Registers interfere both ways, and copies are on the lists of the registers they take
part in. -/
structure Interference.Regular (g : Interference) : Prop where
  copyLists_size : g.copyLists.size = g.size
  bothWays : Worklist.BothWays g.edges
  loopless : Worklist.Loopless g.edges
  dst {id : Nat} {c : Copy} (h : g.copies[id]? = some c) :
    c.dst < g.size ∧ id ∈ g.copyLists.getD c.dst .empty
  src {id : Nat} {c : Copy} (h : g.copies[id]? = some c) :
    c.src < g.size ∧ id ∈ g.copyLists.getD c.src .empty
  ends {n id : Nat} (h : id ∈ g.copyLists.getD n .empty) :
    ∃ c, g.copies[id]? = some c ∧ (c.dst = n ∨ c.src = n)

namespace Worklist

/-- What holds at every stage. Each register but the machine's is in one place; chains of
merges lead out of the merged registers; unsettled copies are on the lists of the registers
that stand for their ends, and no register that is taken out has any. -/
structure Sound (g : Interference) (w : Worklist) : Prop where
  edges_size : w.edges.size = g.size
  copyLists_size : w.copyLists.size = g.size
  parent_size : w.parent.size = g.size
  bothWays : BothWays w.edges
  apart : w.Apart
  somewhere (n : Nat) :
    w.Listed n ∨ n ∈ w.selected ∨ n ∈ w.merged ↔ Vars.machineCount ≤ n ∧ n < g.size
  not_selected {n : Nat} (h : w.Listed n) : n ∉ w.selected
  not_merged {n : Nat} (h : w.Listed n ∨ n ∈ w.selected) : n ∉ w.merged
  nodup : w.stack.Nodup
  mem_stack (n : Nat) : n ∈ w.stack ↔ n ∈ w.selected
  own (n : Nat) : w.parent.getD n n = n ↔ n ∉ w.merged
  leads {n : Nat} (h : n < g.size) :
    ∃ k r, Leads w.parent k n r ∧ r < g.size ∧ k + unseen g.size w.merged ≤ g.size
  copies {id : Nat} (h : w.Unsettled id) : id < g.copies.size
  dst {id : Nat} {c : Copy} (h : w.Unsettled id) (hc : g.copies[id]? = some c) :
    id ∈ w.copyLists.getD (w.rootOf c.dst) .empty
  src {id : Nat} {c : Copy} (h : w.Unsettled id) (hc : g.copies[id]? = some c) :
    id ∈ w.copyLists.getD (w.rootOf c.src) .empty
  free {n : Nat} (h : n ∈ w.simplify ∨ n ∈ w.selected) : w.Free n

section

variable {g : Interference} {w w' : Worklist} {n u v : Nat}
variable {id : Nat}

theorem Quiet.rootOf (h : Quiet w w') (n : Nat) : w'.rootOf n = w.rootOf n := by
  rw [Worklist.rootOf, Worklist.rootOf, h.parent]

theorem Sound.quiet (hw : w.Sound g) (h : Quiet w w') : w'.Sound g where
  edges_size := h.size.trans hw.edges_size
  copyLists_size := by rw [h.copyLists, hw.copyLists_size]
  parent_size := by rw [h.parent, hw.parent_size]
  bothWays := h.bothWays hw.bothWays
  apart := h.apart hw.apart
  somewhere n := by
    rw [h.listed, h.selected, h.merged]
    exact hw.somewhere n
  not_selected hn := by
    rw [h.selected]
    exact hw.not_selected ((h.listed _).mp hn)
  not_merged hn := by
    rw [h.selected, h.listed] at hn
    rw [h.merged]
    exact hw.not_merged hn
  nodup := by
    rw [h.stack]
    exact hw.nodup
  mem_stack n := by
    rw [h.stack, h.selected]
    exact hw.mem_stack n
  own n := by
    rw [h.parent, h.merged]
    exact hw.own n
  leads hn := by
    rw [h.parent, h.merged]
    exact hw.leads hn
  copies hid := hw.copies (h.unsettled hid)
  dst hid hc := by
    rw [h.rootOf, h.copyLists]
    exact hw.dst (h.unsettled hid) hc
  src hid hc := by
    rw [h.rootOf, h.copyLists]
    exact hw.src (h.unsettled hid) hc
  free hn := by
    grind [h.simplify, h.free, hw.free, h.selected]

/-- A chain of merges is followed to its end. -/
theorem Sound.leads_rootOf (hw : w.Sound g) (hn : n < g.size) :
    ∃ k, Leads w.parent k n (w.rootOf n) ∧ w.rootOf n < g.size ∧
      k + unseen g.size w.merged ≤ g.size := by
  obtain ⟨k, r, hleads, hr, hk⟩ := hw.leads hn
  have hroot : w.rootOf n = r := hleads.root_eq (by rw [hw.parent_size]; omega)
  rw [hroot]
  exact ⟨k, hleads, hr, hk⟩

theorem Sound.rootOf_spec (hw : w.Sound g) (hn : n < g.size) :
    w.rootOf n < g.size ∧ w.rootOf n ∉ w.merged := by
  obtain ⟨k, hleads, hr, _⟩ := hw.leads_rootOf hn
  exact ⟨hr, (hw.own _).mp hleads.parent_end⟩

theorem Sound.rootOf_self (hw : w.Sound g) (h : n ∉ w.merged) : w.rootOf n = n :=
  Leads.root_eq (.here ((hw.own n).mpr h)) (Nat.zero_le _)

/-- A register that is no machine's and stands for itself is listed or was taken out. -/
theorem Sound.listed_or_selected (hw : w.Sound g) (hn : n < g.size) (h : n ∉ w.merged)
    (hmachine : Vars.isMachine n = false) : w.Listed n ∨ n ∈ w.selected := by
  grind [Vars.machineCount, Vars.isMachine, hw.somewhere]

theorem Sound.not_machine (hw : w.Sound g) (h : w.Listed n ∨ n ∈ w.selected ∨ n ∈ w.merged) :
    Vars.isMachine n = false := by
  have hle := ((hw.somewhere n).mp h).1
  simpa [Vars.isMachine] using hle

/-! ### Taking a register out -/

theorem Sound.pushed (hw : w.Sound g) (hn : n ∈ w.simplify) : (w.pushed n).Sound g := by
  have hlisted : w.Listed n := .inl hn
  have happart := hw.apart n
  have hlisted' : ∀ m, (w.pushed n).Listed m ↔ w.Listed m ∧ m ≠ n := by
    intro m
    simp only [Listed, Worklist.pushed, KeySet.mem_erase]
    grind
  have hselected : ∀ m, m ∈ (w.pushed n).selected ↔ m ∈ w.selected ∨ m = n := fun m =>
    KeySet.mem_insert
  exact {
    hw with
    apart := fun m => by
      have := hw.apart m
      simp only [Worklist.pushed, KeySet.mem_erase]
      grind
    somewhere := fun m => by
      rw [hlisted', hselected, ← hw.somewhere m]
      show w.Listed m ∧ m ≠ n ∨ (m ∈ w.selected ∨ m = n) ∨ m ∈ w.merged ↔ _
      grind
    not_selected := fun hm => by
      rw [hlisted'] at hm
      rw [hselected]
      exact fun h => h.elim (hw.not_selected hm.1) hm.2
    not_merged := fun hm => by
      rw [hlisted', hselected] at hm
      apply hw.not_merged
      grind
    nodup := nodup_cons.mpr
      ⟨fun h => hw.not_selected hlisted ((hw.mem_stack n).mp h), hw.nodup⟩
    mem_stack := fun m => by
      rw [hselected, ← hw.mem_stack m]
      exact mem_cons.trans or_comm
    free := fun hm => by
      rw [hselected] at hm
      apply hw.free
      simp only [Worklist.pushed, KeySet.mem_erase] at hm
      grind }

/-! ### Merging -/

/-- A listed register with unsettled copies may be merged into another register with which it
does not interfere, the machine's or one with unsettled copies too. -/
structure Mergeable (g : Interference) (w : Worklist) (u v : Nat) : Prop where
  ne : u ≠ v
  lt : u < g.size
  kept : u ∉ w.merged
  waiting : u ∉ w.simplify ∧ u ∉ w.selected
  listed : w.Listed v
  apart : w.interfere u v = false
  copy : ∃ c ∈ g.copies, w.rootOf c.dst = u ∧ w.rootOf c.src = v ∨
    w.rootOf c.dst = v ∧ w.rootOf c.src = u

theorem Sound.leads_fused (hw : w.Sound g) (h : Mergeable g w u v) (hn : n < g.size) :
    ∃ k, Leads (w.fused u v).parent k n (if w.rootOf n = v then u else w.rootOf n) ∧
      k + unseen g.size (w.fused u v).merged ≤ g.size := by
  obtain ⟨k, hleads, _, hk⟩ := hw.leads_rootOf hn
  have hv := (hw.somewhere v).mp (.inl h.listed)
  have hv' := hw.not_merged (.inl h.listed)
  have hcount : unseen g.size (w.merged.insert v) + 1 = unseen g.size w.merged :=
    unseen_insert hv.2 (KeySet.contains_eq_false.mpr hv')
  have hmerge := hleads.merge (hw.parent_size ▸ hv.2) h.ne ((hw.own u).mpr h.kept)
    ((hw.own v).mpr hv')
  split at hmerge
  next heq =>
    rw [if_pos heq]
    exact ⟨k + 1, hmerge, by simp only [Worklist.fused]; omega⟩
  next hne =>
    rw [if_neg hne]
    exact ⟨k, hmerge, by simp only [Worklist.fused]; omega⟩

/-- What stood for itself or was merged before stands for the same registers but for the one
that is merged. -/
theorem Sound.rootOf_fused (hw : w.Sound g) (h : Mergeable g w u v) (hn : n < g.size) :
    (w.fused u v).rootOf n = if w.rootOf n = v then u else w.rootOf n := by
  obtain ⟨k, hleads, hk⟩ := hw.leads_fused h hn
  refine hleads.root_eq ?_
  have hsize : (w.fused u v).parent.size = g.size := by
    rw [Worklist.fused, Array.size_setIfInBounds, hw.parent_size]
  omega

theorem mem_copyLists_fused (hu : u < w.copyLists.size) {r : Nat}
    (hid : id ∈ w.copyLists.getD r .empty) :
    id ∈ (w.fused u v).copyLists.getD (if r = v then u else r) .empty := by
  simp only [Worklist.fused, getD_modify]
  split
  next heq =>
    subst heq
    rw [if_pos ⟨rfl, hu⟩, KeySet.mem_union]
    exact .inr hid
  next =>
    split
    next => exact KeySet.mem_union.mpr (.inl hid)
    next => exact hid

theorem Sound.fused (hw : w.Sound g) (hg : g.Regular) (h : Mergeable g w u v) :
    (w.fused u v).Sound g := by
  have hv := (hw.somewhere v).mp (.inl h.listed)
  have hv' := hw.not_merged (.inl h.listed)
  have hlisted' : ∀ m, (w.fused u v).Listed m ↔ w.Listed m ∧ m ≠ v := by
    intro m
    simp only [Listed, Worklist.fused, KeySet.mem_erase]
    grind
  have hmerged : ∀ m, m ∈ (w.fused u v).merged ↔ m ∈ w.merged ∨ m = v := fun m =>
    KeySet.mem_insert
  have hselected := hw.not_selected h.listed
  exact {
    hw with
    copyLists_size := by rw [Worklist.fused, Array.size_modify, hw.copyLists_size]
    parent_size := by rw [Worklist.fused, Array.size_setIfInBounds, hw.parent_size]
    apart := fun m => by
      have := hw.apart m
      simp only [Worklist.fused, KeySet.mem_erase]
      grind
    somewhere := fun m => by
      rw [hlisted', hmerged, ← hw.somewhere m]
      show w.Listed m ∧ m ≠ v ∨ m ∈ w.selected ∨ m ∈ w.merged ∨ m = v ↔ _
      grind [h.listed]
    not_selected := fun hm => hw.not_selected ((hlisted' _).mp hm).1
    not_merged := fun {m} hm => by
      rw [hlisted'] at hm
      rw [hmerged]
      rintro (hm' | rfl)
      · exact hw.not_merged (hm.imp_left And.left) hm'
      · exact hm.elim (fun h => h.2 rfl) hselected
    own := fun m => by
      simp only [Worklist.fused]
      rw [getD_setIfInBounds _ _ (hw.parent_size ▸ hv.2)]
      split
      next heq => simp [← heq, h.ne]
      next hne =>
        rw [hw.own m]
        simp [Ne.symm hne]
    leads := fun {m} hm => by
      obtain ⟨k, hleads, hk⟩ := hw.leads_fused h hm
      refine ⟨k, _, hleads, ?_, hk⟩
      split
      · exact h.lt
      · exact (hw.rootOf_spec hm).1
    -- The copies of the merged register are now listed with the one it stands for.
    dst := fun hid hc => by
      rw [hw.rootOf_fused h (hg.dst hc).1]
      exact mem_copyLists_fused (hw.copyLists_size ▸ h.lt) (hw.dst hid hc)
    src := fun hid hc => by
      rw [hw.rootOf_fused h (hg.src hc).1]
      exact mem_copyLists_fused (hw.copyLists_size ▸ h.lt) (hw.src hid hc)
    free := fun {m} hm => by
      have hm' : m ∈ w.simplify ∨ m ∈ w.selected := by
        simp only [Worklist.fused, KeySet.mem_erase] at hm
        exact hm.imp_left And.left
      have hne : ¬ (u = m ∧ m < w.copyLists.size) := by
        rintro ⟨rfl, _⟩
        exact hm'.elim h.waiting.1 h.waiting.2
      intro id hid
      simp only [Worklist.fused, getD_modify, if_neg hne] at hid
      exact hw.free hm' id hid }

/-! ### One stage after another -/

/-- How long it can take until a register leaves the graph: copies to look at, and one more
stage if none is ready to be taken out. -/
def pace (g : Interference) (w : Worklist) : Nat :=
  g.copies.size - unseen g.copies.size w.ready + if w.simplify.isEmpty then 1 else 0

theorem pace_le (g : Interference) (w : Worklist) : w.pace g ≤ g.copies.size + 1 := by
  unfold pace
  split <;> omega

theorem unseen_erase {size : Nat} {s : KeySet} (hlt : id < size) (hid : id ∈ s) :
    unseen size (s.erase id) = unseen size s + 1 := by
  have hinsert : (s.erase id).insert id = s := by
    apply KeySet.ext_contains
    intro k
    by_cases hk : k = id
    · subst hk
      simpa using hid.symm
    · simp [hk]
  have hnew : (s.erase id).contains id = false := by simp
  have hcount := unseen_insert hlt hnew
  rw [hinsert] at hcount
  exact hcount.symm

/-- Looking at a copy is progress. -/
theorem pace_lt_of_look (hlt : id < g.copies.size) (hid : id ∈ w.ready)
    (hnone : ∀ n, n ∉ w.simplify) (hready : w'.ready = w.ready.erase id) :
    w'.pace g < w.pace g := by
  grind [KeySet.isEmpty_iff, unseen_erase, unseen_le_size, pace, reduceIte]

/-- Making a register ready to be taken out is progress. -/
theorem pace_lt_of_release {freeze spill : KeySet} (hnone : ∀ n, n ∉ w.simplify) :
    (giveUpAll g { w with simplify := w.simplify.insert n, freeze, spill } n).pace g <
      w.pace g := by
  generalize hw : { w with simplify := w.simplify.insert n, freeze, spill } = w₁
  have hquiet := quiet_giveUpAll (g := g) (n := n) w₁
  have hready : ∀ id, id ∈ (giveUpAll g w₁ n).ready → id ∈ w₁.ready := fun _ => ready_giveUpAll _
  generalize giveUpAll g w₁ n = w' at hquiet hready ⊢
  subst hw
  have hempty : w.simplify.isEmpty = true := KeySet.isEmpty_iff.mpr hnone
  have hfull : w'.simplify.isEmpty = false := by
    rw [← Bool.not_eq_true, KeySet.isEmpty_iff]
    exact fun h => h n (hquiet.simplified (KeySet.mem_insert.mpr (.inr rfl)))
  have hle : unseen g.copies.size w.ready ≤ unseen g.copies.size w'.ready := unseen_le hready
  unfold pace
  rw [hempty, hfull]
  simp only [Bool.false_eq_true, ↓reduceIte]
  omega

/-- What a stage does: it is quiet but gets on, takes a register out, or merges one. -/
inductive Advances (g : Interference) (w w' : Worklist) : Prop
  | quiet (h : Quiet w w') (hedges : w'.edges = w.edges) (hpace : w'.pace g < w.pace g)
  | select {n : Nat} (hn : n ∈ w.simplify) (h : Quiet (w.pushed n) w')
      (hedges : w'.edges = w.edges)
  | merge {u v : Nat} (huv : Mergeable g w u v) (hmay : w.mayMerge u v = true)
      (h : Quiet (w.fused u v) w')
      (hedges : ∀ x y, x ∈ w'.edges.getD y .empty ↔ x ∈ w.edges.getD y .empty ∨
        x ≠ y ∧ (y ∈ w.partners u v ∧ x = u ∨ y = u ∧ x ∈ w.partners u v))

theorem Sound.advances (hg : g.Regular) (hw : w.Sound g) (h : Advances g w w') : w'.Sound g := by
  cases h with
  | quiet h _ _ => exact hw.quiet h
  | select hn h _ => exact (hw.pushed hn).quiet h
  | merge huv _ h _ => exact (hw.fused hg huv).quiet h

/-- The register that stands for an end of an unsettled copy has not been taken out. -/
theorem Sound.waits (hw : w.Sound g) (hid : w.Unsettled id) (hn : id ∈ w.copyLists.getD n .empty) :
    n ∉ w.simplify ∧ n ∉ w.selected :=
  ⟨fun h => hw.free (.inl h) id hn hid, fun h => hw.free (.inr h) id hn hid⟩

theorem advances_merge (hw : w.Sound g) (huv : Mergeable g w u v) (hmay : w.mayMerge u v = true) :
    Advances g w (({ w with ready := w.ready.erase id }.merge u v).relax u) := by
  obtain ⟨htame, hedges⟩ := merge_spec (w := { w with ready := w.ready.erase id }) (v := v)
    (hw.edges_size ▸ huv.lt) hw.bothWays
  refine .merge huv hmay
    ((quiet_look (w.fused u v) id).trans (htame.trans (tame_relax _ u)).toQuiet) ?_
  rw [edges_relax]
  exact hedges

/-- What becomes of a copy that is looked at: its registers are merged already, or cannot be, or
are merged now, or the copy waits. -/
theorem coalesce_cases (hg : g.Regular) (hw : w.Sound g) (hid : id ∈ w.ready) :
    ∃ c u v, g.copies[id]? = some c ∧
      (w.rootOf c.dst = u ∧ w.rootOf c.src = v ∨ w.rootOf c.dst = v ∧ w.rootOf c.src = u) ∧
      (u = v ∧ w.coalesce g id = { w with ready := w.ready.erase id }.relax u ∨
      w.coalesce g id = ({ w with ready := w.ready.erase id }.relax u).relax v ∨
      (Mergeable g w u v ∧ w.mayMerge u v = true ∧
        w.coalesce g id = ({ w with ready := w.ready.erase id }.merge u v).relax u) ∨
      w.coalesce g id = { w with ready := w.ready.erase id, active := w.active.insert id }) := by
  have hunsettled : w.Unsettled id := .inl hid
  have hc : g.copies[id]? = some (g.copies.getD id default) := by
    simp [Array.getD, hw.copies hunsettled]
  unfold coalesce
  dsimp only
  generalize g.copies.getD id default = c at hc
  have hdst := hw.rootOf_spec (hg.dst hc).1
  have hsrc := hw.rootOf_spec (hg.src hc).1
  have hcopy := hw.dst hunsettled hc
  have hcopy' := hw.src hunsettled hc
  rw [(quiet_look w id).rootOf, (quiet_look w id).rootOf]
  -- Of the two registers the machine's comes first, if there is one.
  obtain ⟨u, v, heq, hends⟩ : ∃ u v,
      (if Vars.isMachine (w.rootOf c.src) then (w.rootOf c.src, w.rootOf c.dst)
        else (w.rootOf c.dst, w.rootOf c.src)) = (u, v) ∧
      (w.rootOf c.dst = u ∧ w.rootOf c.src = v ∨ w.rootOf c.dst = v ∧ w.rootOf c.src = u) := by
    split
    · exact ⟨_, _, rfl, .inr ⟨rfl, rfl⟩⟩
    · exact ⟨_, _, rfl, .inl ⟨rfl, rfl⟩⟩
  have hu : u < g.size ∧ u ∉ w.merged ∧ id ∈ w.copyLists.getD u .empty := by
    grind
  have hv : v < g.size ∧ v ∉ w.merged ∧ id ∈ w.copyLists.getD v .empty := by
    grind
  rw [heq]
  dsimp only
  refine ⟨c, u, v, hc, hends, ?_⟩
  split
  next huv => exact .inl ⟨huv, rfl⟩
  next hne =>
    split
    next => exact .inr (.inl rfl)
    next hapart =>
      rw [Bool.or_eq_true, not_or, Bool.not_eq_true, Bool.not_eq_true] at hapart
      split
      next hmay =>
        have hlisted := hw.listed_or_selected hv.1 hv.2.1 hapart.1
        refine .inr (.inr (.inl ⟨?_, hmay, rfl⟩))
        exact {
          ne := hne
          lt := hu.1
          kept := hu.2.1
          waiting := hw.waits hunsettled hu.2.2
          listed := hlisted.resolve_right (hw.waits hunsettled hv.2.2).2
          apart := hapart.2
          copy := ⟨c, Array.mem_of_getElem? hc, hends⟩ }
      next => exact .inr (.inr (.inr rfl))

theorem advances_coalesce (hg : g.Regular) (hw : w.Sound g) (hid : id ∈ w.ready)
    (hnone : ∀ n, n ∉ w.simplify) : Advances g w (w.coalesce g id) := by
  have hunsettled : w.Unsettled id := .inl hid
  have hlook : ∀ w' : Worklist, w'.ready = w.ready.erase id → w'.pace g < w.pace g := fun _ =>
    pace_lt_of_look (hw.copies hunsettled) hid hnone
  obtain ⟨c, u, v, _, _, ⟨_, heq⟩ | heq | ⟨huv, hmay, heq⟩ | heq⟩ := coalesce_cases hg hw hid
  · rw [heq]
    exact .quiet ((quiet_look w id).trans (tame_relax _ _).toQuiet) (by simp) (hlook _ (by simp))
  · rw [heq]
    exact .quiet ((quiet_look w id).trans ((tame_relax _ _).trans (tame_relax _ _)).toQuiet)
      (by simp) (hlook _ (by simp))
  · rw [heq]
    exact advances_merge hw huv hmay
  · rw [heq]
    refine .quiet (quiet_settle w _ (w.active.insert id) ?_) rfl (hlook _ rfl)
    rintro j (hj | hj)
    · exact .inl (KeySet.mem_erase.mp hj).1
    · rcases KeySet.mem_insert.mp hj with hj | rfl
      · exact .inr hj
      · exact hunsettled

/-- The cheaper of two registers, the first of which may be missing. -/
theorem cheapest?_cons (ns : List Nat) : ∃ m, w.cheapest? g (n :: ns) = some m ∧ m ∈ n :: ns := by
  unfold cheapest?
  rw [foldl_cons]
  induction ns generalizing n with
  | nil => exact ⟨n, rfl, mem_singleton.mpr rfl⟩
  | cons k ns ih =>
    rw [foldl_cons]
    dsimp only
    split
    · obtain ⟨m, hm, hmem⟩ := ih (n := k)
      exact ⟨m, hm, mem_cons_of_mem n hmem⟩
    · obtain ⟨m, hm, hmem⟩ := ih (n := n)
      refine ⟨m, hm, ?_⟩
      rcases mem_cons.mp hmem with rfl | hmem
      · exact mem_cons_self
      · exact mem_cons_of_mem n (mem_cons_of_mem k hmem)

theorem mem_of_cheapest? {ns : List Nat} (h : w.cheapest? g ns = some n) : n ∈ ns := by
  cases ns with
  | nil => cases h
  | cons m ns =>
    obtain ⟨k, hk, hmem⟩ := cheapest?_cons (g := g) (w := w) (n := m) ns
    rw [hk] at h
    exact Option.some.inj h ▸ hmem

/-- Every stage is quiet, takes a register out, or merges one. -/
theorem advances_next? (hg : g.Regular) (hw : w.Sound g) (h : w.next? g = some w') :
    Advances g w w' := by
  unfold next? at h
  split at h
  next n hn =>
    obtain rfl := Option.some.inj h
    exact .select (KeySet.mem_of_first? hn) (tame_select w n).toQuiet (edges_select w n)
  next id hnone hid =>
    obtain rfl := Option.some.inj h
    exact advances_coalesce hg hw (KeySet.mem_of_first? hid) (KeySet.first?_eq_none hnone)
  next n hnone _ hn =>
    obtain rfl := Option.some.inj h
    exact .quiet (quiet_thaw (KeySet.mem_of_first? hn)) (edges_giveUpAll _)
      (pace_lt_of_release (KeySet.first?_eq_none hnone))
  next n hnone _ _ hn =>
    obtain rfl := Option.some.inj h
    exact .quiet (quiet_sacrifice ((KeySet.mem_toList _ _).mp (mem_of_cheapest? hn)))
      (edges_giveUpAll _) (pace_lt_of_release (KeySet.first?_eq_none hnone))
  next => cases h

/-- How many stages can be left: for each register in the graph one in which it leaves, and
those that may come before. -/
def effort (g : Interference) (w : Worklist) : Nat :=
  unseen g.size (w.selected.union w.merged) * (g.copies.size + 2) + w.pace g

theorem effort_lt_of_leaves (hn : n < g.size) (h : n ∉ w.selected) (h' : n ∉ w.merged)
    (heq : w'.selected.union w'.merged = (w.selected.union w.merged).insert n) :
    w'.effort g < w.effort g := by
  have hnew : (w.selected.union w.merged).contains n = false :=
    KeySet.contains_eq_false.mpr fun hmem => (KeySet.mem_union.mp hmem).elim h h'
  have hcount := unseen_insert hn hnew
  have hpace := pace_le g w'
  unfold effort
  rw [heq, ← hcount, Nat.add_mul]
  omega

/-- Every stage brings the work nearer to its end. -/
theorem effort_lt (hw : w.Sound g) (h : Advances g w w') : w'.effort g < w.effort g := by
  cases h with
  | quiet h _ hpace =>
    unfold effort
    rw [h.selected, h.merged]
    omega
  | @select n hn h _ =>
    have hlisted : w.Listed n := .inl hn
    refine effort_lt_of_leaves ((hw.somewhere n).mp (.inl hlisted)).2 (hw.not_selected hlisted)
      (hw.not_merged (.inl hlisted)) ?_
    rw [h.selected, h.merged]
    apply KeySet.ext_contains
    intro k
    simp only [Worklist.pushed, KeySet.contains_union, KeySet.contains_insert]
    grind
  | @merge u v huv _ h _ =>
    refine effort_lt_of_leaves ((hw.somewhere v).mp (.inl huv.listed)).2
      (hw.not_selected huv.listed) (hw.not_merged (.inl huv.listed)) ?_
    rw [h.selected, h.merged]
    apply KeySet.ext_contains
    intro k
    simp only [Worklist.fused, KeySet.contains_union, KeySet.contains_insert]
    grind

/-- What every stage keeps holds of the last one that is reached, and with fuel enough there
is none after it. -/
theorem run_induction (hg : g.Regular) {P : Worklist → Prop}
    (hstep : ∀ {w w'}, w.Sound g → w.next? g = some w' → P w → P w') (hw : w.Sound g) (hP : P w)
    (fuel : Nat) : (run g fuel w).Sound g ∧ P (run g fuel w) ∧
      (w.effort g ≤ fuel → (run g fuel w).next? g = none) := by
  induction fuel generalizing w with
  | zero =>
    unfold run
    refine ⟨hw, hP, fun hfuel => ?_⟩
    cases hnext : w.next? g with
    | none => rfl
    | some w' =>
      have hlt := effort_lt hw (advances_next? hg hw hnext)
      omega
  | succ fuel ih =>
    unfold run
    cases hnext : w.next? g with
    | none => exact ⟨hw, hP, fun _ => hnext⟩
    | some w' =>
      have hadvances := advances_next? hg hw hnext
      have hlt := effort_lt hw hadvances
      obtain ⟨hsound, hP, hends⟩ := ih (hw.advances hg hadvances) (hstep hw hnext hP)
      exact ⟨hsound, hP, fun hfuel => hends (by omega)⟩

/-- When there is no next stage no register is listed, and no copy is to be looked at. -/
theorem lists_empty_of_next? (h : w.next? g = none) :
    (∀ n, ¬ w.Listed n) ∧ ∀ id, id ∉ w.ready := by
  unfold next? at h
  split at h
  next => cases h
  next => cases h
  next => cases h
  next => cases h
  next hsimplify hready hfreeze hspill =>
    refine ⟨?_, KeySet.first?_eq_none hready⟩
    rintro n (hn | hn | hn)
    · exact KeySet.first?_eq_none hsimplify n hn
    · exact KeySet.first?_eq_none hfreeze n hn
    · have hmem := (KeySet.mem_toList _ n).mpr hn
      cases hlist : w.spill.toList with
      | nil =>
        rw [hlist] at hmem
        exact not_mem_nil hmem
      | cons m ms =>
        obtain ⟨k, hk, _⟩ := cheapest?_cons (g := g) (w := w) (n := m) ms
        rw [hlist, hk] at hspill
        cases hspill

/-! ### The first stage -/

/-- Placing a register puts it on one list. -/
theorem place_spec (w : Worklist) (n : Nat) : ∃ simplify freeze spill,
    w.place n = { w with simplify, freeze, spill } ∧
      (∀ m, m ∈ simplify ∨ m ∈ freeze ∨ m ∈ spill ↔ w.Listed m ∨ m = n) ∧
      (¬ w.Listed n → w.Apart → (w.place n).Apart) ∧
      (∀ m, m ∈ simplify → m ∈ w.simplify ∨ w.Free m) ∧
      ∀ m, m ∈ freeze → m ∈ w.freeze ∨ ¬ w.Free m := by
  unfold place
  split
  next =>
    exact ⟨_, _, _, rfl, by grind [Listed], by grind [Apart, Listed], fun _ => .inl, fun _ => .inl⟩
  next =>
    split
    next hrelated =>
      have hheld : ¬ w.Free n := by
        rw [← isCopyRelated_eq_false, hrelated]
        nofun
      exact ⟨_, _, _, rfl, by grind [Listed], by grind [Apart, Listed], fun _ => .inl, by grind⟩
    next hrelated =>
      grind [isCopyRelated_eq_false, Listed, Apart]

theorem foldl_place_spec {ns : List Nat} (hnodup : ns.Nodup) (w : Worklist)
    (hnew : ∀ n ∈ ns, ¬ w.Listed n) (hapart : w.Apart)
    (hfree : ∀ m, (m ∈ w.simplify → w.Free m) ∧ (m ∈ w.freeze → ¬ w.Free m)) :
    ∃ simplify freeze spill, ns.foldl place w = { w with simplify, freeze, spill } ∧
      (∀ m, m ∈ simplify ∨ m ∈ freeze ∨ m ∈ spill ↔ w.Listed m ∨ m ∈ ns) ∧
      (ns.foldl place w).Apart ∧
      ∀ m, (m ∈ simplify → w.Free m) ∧ (m ∈ freeze → ¬ w.Free m) := by
  induction ns generalizing w with
  | nil => exact ⟨_, _, _, rfl, fun m => by simp [Listed], hapart, hfree⟩
  | cons n ns ih =>
    obtain ⟨hn, hnodup⟩ := nodup_cons.mp hnodup
    obtain ⟨simplify, freeze, spill, heq, hlisted, hapart', hfree', hheld⟩ := place_spec w n
    have hplaced : ∀ m, (w.place n).Listed m ↔ w.Listed m ∨ m = n := by
      rw [heq]
      exact hlisted
    have hsame : ∀ m, (w.place n).Free m ↔ w.Free m := by
      rw [heq]
      exact fun _ => Iff.rfl
    obtain ⟨a, b, c, heq', hlisted', hapart'', hfree''⟩ := ih hnodup (w.place n) (by
      intro m hm hplace
      rcases (hplaced m).mp hplace with h | rfl
      · exact hnew m (mem_cons_of_mem n hm) h
      · exact hn hm) (hapart' (hnew n mem_cons_self) hapart) (by
      intro m
      rw [hsame, heq]
      exact ⟨fun hm => (hfree' m hm).elim (hfree m).1 id,
        fun hm => (hheld m hm).elim (hfree m).2 id⟩)
    refine ⟨a, b, c, ?_, ?_, hapart'', ?_⟩
    · rw [foldl_cons, heq', heq]
    · intro m
      rw [hlisted', hplaced, mem_cons, or_assoc]
    · simpa only [hsame] using hfree''

/-- The first stage before any register is placed. -/
def unplaced (g : Interference) : Worklist where
  edges := g.edges
  degree := g.edges.map KeySet.size
  copyLists := g.copyLists
  simplify := .empty
  freeze := .empty
  spill := .empty
  stack := []
  selected := .empty
  merged := .empty
  parent := Array.range g.size
  ready := .ofList (List.range g.copies.size)
  active := .empty

theorem start_spec (g : Interference) : ∃ simplify freeze spill,
    start g = { unplaced g with simplify, freeze, spill } ∧
      (∀ n, n ∈ simplify ∨ n ∈ freeze ∨ n ∈ spill ↔ Vars.machineCount ≤ n ∧ n < g.size) ∧
      (start g).Apart ∧
      ∀ n, (n ∈ simplify → (unplaced g).Free n) ∧ (n ∈ freeze → ¬ (unplaced g).Free n) := by
  have hnodup := nodup_range' (s := Vars.machineCount) (n := g.size - Vars.machineCount)
  obtain ⟨a, b, c, heq, hlisted, hapart, hfree⟩ := foldl_place_spec hnodup (unplaced g)
    (by simp [Listed, unplaced]) (by simp [Apart, unplaced]) (by simp [unplaced])
  refine ⟨a, b, c, heq, ?_, hapart, hfree⟩
  intro n
  rw [hlisted n]
  simp only [Listed, unplaced, KeySet.not_mem_empty, or_self, false_or, mem_range'_1]
  omega

theorem getD_range (size n : Nat) : (Array.range size).getD n n = n := by
  by_cases h : n < size <;> simp [Array.getD, h]

theorem rootOf_start (g : Interference) (n : Nat) : (start g).rootOf n = n := by
  obtain ⟨_, _, _, heq, _⟩ := start_spec g
  rw [heq]
  exact Leads.root_eq (.here (getD_range g.size n)) (Nat.zero_le _)

theorem sound_start (hg : g.Regular) : (start g).Sound g := by
  obtain ⟨simplify, freeze, spill, heq, hlisted, hapart, hfree⟩ := start_spec g
  have hroot := rootOf_start g
  have hcopies : ∀ {id}, (unplaced g).Unsettled id → id < g.copies.size := by
    rintro id (h | h)
    · exact mem_range.mp ((contains_ofList _ id).mp h)
    · exact absurd h KeySet.not_mem_empty
  rw [heq] at hapart hroot ⊢
  exact {
    edges_size := rfl
    copyLists_size := hg.copyLists_size
    parent_size := Array.size_range
    bothWays := hg.bothWays
    apart := hapart
    somewhere := fun n => by
      rw [← hlisted n]
      simp [Listed, unplaced]
    not_selected := fun _ => KeySet.not_mem_empty
    not_merged := fun _ => KeySet.not_mem_empty
    nodup := nodup_nil
    mem_stack := fun n => by simp [unplaced]
    own := fun n => ⟨fun _ => KeySet.not_mem_empty, fun _ => getD_range g.size n⟩
    leads := fun {n} hn =>
      ⟨0, n, .here (getD_range g.size n), hn, by simpa using unseen_le_size g.size _⟩
    copies := hcopies
    dst := fun _ hc => by
      rw [hroot]
      exact (hg.dst hc).2
    src := fun _ hc => by
      rw [hroot]
      exact (hg.src hc).2
    free := fun {n} hn => hn.elim (hfree n).1 fun h => absurd h KeySet.not_mem_empty }

theorem effort_start_le (g : Interference) : (start g).effort g ≤ stages g := by
  have hcount := unseen_le_size g.size ((start g).selected.union (start g).merged)
  have hpace := pace_le g (start g)
  have hmul := Nat.mul_le_mul hcount (Nat.le_refl (g.copies.size + 2))
  have hrest : g.size * (g.copies.size + 2) ≤ g.size * (g.copies.size + 4) :=
    Nat.mul_le_mul (Nat.le_refl _) (by omega)
  unfold effort stages
  rw [Nat.add_mul g.size 1]
  omega

/-- What every stage keeps holds in the end, when no register waits on a list any more. -/
theorem final_induction (hg : g.Regular) {P : Worklist → Prop} (hstart : P (start g))
    (hstep : ∀ {w w'}, w.Sound g → w.next? g = some w' → P w → P w') :
    (final g).Sound g ∧ P (final g) ∧ ∀ n, ¬ (final g).Listed n := by
  obtain ⟨hsound, hP, hends⟩ := run_induction hg hstep (sound_start hg) hstart (stages g)
  exact ⟨hsound, hP, (lists_empty_of_next? (hends (effort_start_le g))).1⟩

/-- In the end every register has one that stands for it, the machine's or one that was taken
out. -/
theorem final_rootOf (hg : g.Regular) (hn : n < g.size) :
    Vars.isMachine ((final g).rootOf n) = true ∨ (final g).rootOf n ∈ (final g).stack := by
  obtain ⟨hsound, _, hlisted⟩ :=
    final_induction hg (P := fun _ => True) trivial fun _ _ _ => trivial
  obtain ⟨hlt, hmerged⟩ := hsound.rootOf_spec hn
  cases hmachine : Vars.isMachine ((final g).rootOf n) with
  | true => exact .inl rfl
  | false =>
    right
    rw [hsound.mem_stack]
    exact (hsound.listed_or_selected hlt hmerged hmachine).resolve_left (hlisted _)

/-- Registers of one kind are merged only with registers of that kind if copies are between
such. -/
theorem final_rootOf_of_copies (hg : g.Regular) {p : Nat → Prop}
    (hcopies : ∀ c ∈ g.copies, p c.dst ∧ p c.src) (hn : n < g.size) (hp : p n) :
    p ((final g).rootOf n) := by
  have hroots := final_induction hg (P := fun w => ∀ n < g.size, p n → p (w.rootOf n)) ?_ ?_
  · exact hroots.2.1 n hn hp
  · intro n _ hp
    rwa [rootOf_start]
  · intro w w' hw hnext hroots n hn hp
    cases advances_next? hg hw hnext with
    | quiet h _ _ | select _ h _ =>
      rw [h.rootOf]
      exact hroots n hn hp
    | merge huv _ h _ =>
      rw [h.rootOf, hw.rootOf_fused huv hn]
      split
      · obtain ⟨c, hc, hends⟩ := huv.copy
        obtain ⟨hdst, hsrc⟩ := hcopies c hc
        obtain ⟨id, hlt, rfl⟩ := Array.getElem_of_mem hc
        have hget := Array.getElem?_eq_getElem hlt
        rcases hends with ⟨rfl, _⟩ | ⟨_, rfl⟩
        · exact hroots _ (hg.dst hget).1 hdst
        · exact hroots _ (hg.src hget).1 hsrc
      · exact hroots n hn hp

end

end Worklist

end Alloc

end X64Backend
