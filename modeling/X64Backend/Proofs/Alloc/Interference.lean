import X64Backend.Proofs.Alloc.Worklist

/-! # What interferes

The interference of code with known liveness goes both ways, every copy is on the lists of
its two registers, and a register that is written interferes with all others that are live
behind the write.
-/

namespace X64Backend.Alloc

open Asm Dataflow Worklist List

/-! ## Joining registers -/

/-- Registers are joined and stay so. -/
structure Grows (edges edges' : Array KeySet) : Prop where
  size : edges'.size = edges.size
  mono {u v : Nat} (h : v ∈ edges.getD u .empty) : v ∈ edges'.getD u .empty
  bothWays (h : BothWays edges) : BothWays edges'
  loopless (h : Loopless edges) : Loopless edges'

namespace Grows

variable {edges edges' edges'' : Array KeySet} {u v : Nat}

theorem refl (edges : Array KeySet) : Grows edges edges := ⟨rfl, id, id, id⟩

theorem trans (h : Grows edges edges') (h' : Grows edges' edges'') : Grows edges edges'' :=
  ⟨h'.size.trans h.size, fun hv => h'.mono (h.mono hv), fun hb => h'.bothWays (h.bothWays hb),
    fun hl => h'.loopless (h.loopless hl)⟩

theorem joined (hu : u < edges.size) (hv : v < edges.size) : Grows edges (joined edges u v) :=
  ⟨size_joined edges u v, fun h => (mem_getD_joined hu hv).mpr (.inl h), fun h => h.joined hu hv,
    fun h => h.joined hu hv⟩

/-- Joining for one register after another joins for each of them. -/
theorem foldl (edges : Array KeySet) (ns : List Nat) {f : Array KeySet → Nat → Array KeySet}
    {P : Nat → Array KeySet → Prop}
    (hP : ∀ {n edges edges'}, Grows edges edges' → P n edges → P n edges')
    (hf : ∀ edges', edges'.size = edges.size → ∀ n ∈ ns, Grows edges' (f edges' n) ∧ P n (f edges' n)) :
    Grows edges (ns.foldl f edges) ∧ ∀ n ∈ ns, P n (ns.foldl f edges) := by
  induction ns generalizing edges with
  | nil => exact ⟨.refl edges, fun n hn => absurd hn not_mem_nil⟩
  | cons n ns ih =>
    obtain ⟨hgrows, hn⟩ := hf edges rfl n mem_cons_self
    obtain ⟨hrest, hns⟩ := ih (f edges n) fun edges' hsize m hm =>
      hf edges' (hsize.trans hgrows.size) m (mem_cons_of_mem n hm)
    refine ⟨hgrows.trans hrest, ?_⟩
    intro m hm
    rcases mem_cons.mp hm with rfl | hm
    · exact hP hrest hn
    · exact hns m hm

theorem joinedAll {vs : KeySet} {d : Nat} (hvs : ∀ v, v ∈ vs → v < edges.size) (hd : d < edges.size) :
    Grows edges (joinedAll edges vs d) ∧
      ∀ v, v ∈ vs → v ≠ d → v ∈ (joinedAll edges vs d).getD d .empty := by
  obtain ⟨hgrows, hall⟩ := foldl edges vs.toList
    (f := fun edges v => Alloc.joined edges v d)
    (P := fun v edges => v ≠ d → v ∈ edges.getD d .empty)
    (fun h hv hne => h.mono (hv hne)) (fun edges' hsize v hv => by
      have hv' : v < edges'.size := hsize ▸ hvs v ((KeySet.mem_toList vs v).mp hv)
      have hd' : d < edges'.size := hsize ▸ hd
      refine ⟨.joined hv' hd', fun hne => ?_⟩
      exact (mem_getD_joined hv' hd').mpr (.inr ⟨hne, .inr ⟨rfl, rfl⟩⟩))
  exact ⟨hgrows, fun v hv => hall v ((KeySet.mem_toList vs v).mpr hv)⟩

end Grows

/-! ## The interference of code -/

theorem eq_mov_of_copy? {vars : Vars} {x : Instr} {c : Copy} (h : copy? vars x = some c) :
    ∃ d s, x = .mov (.reg d) (.reg s) ∧ vars.id? d = some c.dst ∧ vars.id? s = some c.src := by
  unfold copy? at h
  split at h
  next d s =>
    grind [Option.bind_eq_some_iff, Option.some.inj]
  next => cases h

/-- The registers that those which an instruction writes must be kept apart from. -/
def conflicts (vars : Vars) (x : Instr) (p : Point) (behind : KeySet) : KeySet :=
  (match copy? vars x with
    | some _ => behind.diff p.uses
    | none => behind).union p.defs

/-- Interference that is regular, has no copies but those of the code, and keeps what is
written apart from what is live. -/
structure Interference.Records (vars : Vars) (code : List (Instr × Point × KeySet))
    (g : Interference) : Prop extends g.Regular where
  size : g.size = vars.size
  copies {c : Copy} (h : c ∈ g.copies) : ∃ t ∈ code, copy? vars t.1 = some c
  apart {x : Instr} {p : Point} {behind : KeySet} {d k : Nat} (h : (x, p, behind) ∈ code)
    (hd : d ∈ p.defs) (hk : k ∈ conflicts vars x p behind) (hne : k ≠ d) :
    k ∈ g.edges.getD d .empty

namespace Interference

variable {g : Interference} {vars : Vars} {code : List (Instr × Point × KeySet)}
variable {x : Instr} {p : Point} {behind : KeySet}

theorem getD_edges_blank (count u : Nat) : (blank count).edges.getD u .empty = .empty := by
  simp [blank, Array.getD_eq_getD_getElem?, Array.getElem?_replicate]
  split <;> rfl

theorem records_blank (vars : Vars) : (blank vars.size).Records vars [] where
  copyLists_size := by simp [blank, Interference.size]
  bothWays u v h := by
    rw [getD_edges_blank] at h
    exact absurd h KeySet.not_mem_empty
  loopless u h := by
    rw [getD_edges_blank] at h
    exact absurd h KeySet.not_mem_empty
  dst h := by simp [blank] at h
  src h := by simp [blank] at h
  ends {n id} h := by
    have hnone : (blank vars.size).copyLists.getD n .empty = .empty := getD_edges_blank vars.size n
    rw [hnone] at h
    exact absurd h KeySet.not_mem_empty
  size := by simp [blank, Interference.size]
  copies h := by simp [blank] at h
  apart h := absurd h not_mem_nil

theorem mem_getD_modify_insert {lists : Array KeySet} {a b j k : Nat} (h : a < lists.size) :
    j ∈ (lists.modify a (·.insert b)).getD k .empty ↔
      j ∈ lists.getD k .empty ∨ k = a ∧ j = b := by
  rw [getD_modify]
  grind

theorem getElem?_addCopy {c c' : Copy} {id : Nat} : (g.addCopy c).copies[id]? = some c' ↔
    g.copies[id]? = some c' ∨ c' = c ∧ id = g.copies.idxOf c := by
  have hfound (hc : c ∈ g.copies) : g.copies[g.copies.idxOf c]? = some c := by
    generalize g.copies = copies at hc
    obtain ⟨copies⟩ := copies
    simpa using getElem?_idxOf (Array.mem_toList_iff.mpr hc)
  grind [Array.idxOf_le_size, addCopy, Option.some.inj]

theorem Regular.mem_copyLists_addCopy (h : g.Regular) {c : Copy} (hdst : c.dst < g.size)
    (hsrc : c.src < g.size) {n id : Nat} : id ∈ (g.addCopy c).copyLists.getD n .empty ↔
      id ∈ g.copyLists.getD n .empty ∨ (n = c.dst ∨ n = c.src) ∧ id = g.copies.idxOf c := by
  rw [← h.copyLists_size] at hdst hsrc
  rw [Interference.addCopy, mem_getD_modify_insert (by rwa [Array.size_modify]),
    mem_getD_modify_insert hdst]
  tauto

/-- A copy that is added is on the lists of its registers. -/
theorem Regular.addCopy (h : g.Regular) {c : Copy} (hdst : c.dst < g.size) (hsrc : c.src < g.size) :
    (g.addCopy c).Regular where
  copyLists_size := by
    simp only [Interference.addCopy, Array.size_modify]
    exact h.copyLists_size
  bothWays := h.bothWays
  loopless := h.loopless
  dst hc := by
    rw [h.mem_copyLists_addCopy hdst hsrc]
    rcases getElem?_addCopy.mp hc with hc | ⟨rfl, rfl⟩
    · exact (h.dst hc).imp_right .inl
    · exact ⟨hdst, .inr ⟨.inl rfl, rfl⟩⟩
  src hc := by
    rw [h.mem_copyLists_addCopy hdst hsrc]
    rcases getElem?_addCopy.mp hc with hc | ⟨rfl, rfl⟩
    · exact (h.src hc).imp_right .inl
    · exact ⟨hsrc, .inr ⟨.inr rfl, rfl⟩⟩
  ends hid := by
    simp only [getElem?_addCopy]
    rcases (h.mem_copyLists_addCopy hdst hsrc).mp hid with hid | ⟨hn, rfl⟩
    · obtain ⟨c', hc', hn⟩ := h.ends hid
      exact ⟨c', .inl hc', hn⟩
    · exact ⟨c, .inr ⟨rfl, rfl⟩, hn.imp Eq.symm Eq.symm⟩

/-- The interference with what an instruction makes interfere, but for how often registers
are accessed. -/
def joinedAt (g : Interference) (vars : Vars) (x : Instr) (p : Point) (behind : KeySet) :
    Interference :=
  let join (edges : Array KeySet) (d : Nat) := joinedAll edges (conflicts vars x p behind) d
  let g := (copy? vars x).elim g g.addCopy
  { g with edges := p.defs.toList.foldl join g.edges }

theorem foldl_addWeight (ns : List Nat) (g : Interference) :
    ∃ weights, ns.foldl addWeight g = { g with weights } := by
  induction ns generalizing g with
  | nil => exact ⟨g.weights, rfl⟩
  | cons n ns ih => exact ih (g.addWeight n)

theorem addPoint_eq (g : Interference) (vars : Vars) (x : Instr) (p : Point) (behind : KeySet) :
    ∃ weights, g.addPoint vars x p behind = { g.joinedAt vars x p behind with weights } := by
  have heq : g.addPoint vars x p behind =
      p.defs.toList.foldl addWeight (p.uses.toList.foldl addWeight (g.joinedAt vars x p behind)) := by
    unfold addPoint joinedAt conflicts
    cases copy? vars x <;> rfl
  obtain ⟨_, huses⟩ := foldl_addWeight p.uses.toList (g.joinedAt vars x p behind)
  obtain ⟨weights, hdefs⟩ :=
    foldl_addWeight p.defs.toList (p.uses.toList.foldl addWeight (g.joinedAt vars x p behind))
  refine ⟨weights, ?_⟩
  rw [heq, hdefs, huses]

/-- An instruction whose registers are all numbered. -/
structure Numbered (vars : Vars) (x : Instr) (p : Point) (behind : KeySet) : Prop where
  copy {c : Copy} (h : copy? vars x = some c) : c.dst < vars.size ∧ c.src < vars.size
  defs {k : Nat} (h : k ∈ p.defs) : k < vars.size
  behind {k : Nat} (h : k ∈ behind) : k < vars.size

theorem Numbered.conflicts (h : Numbered vars x p behind) {k : Nat}
    (hk : k ∈ conflicts vars x p behind) : k < vars.size := by
  unfold Alloc.conflicts at hk
  rcases KeySet.mem_union.mp hk with hk | hk
  · split at hk
    · exact h.behind (KeySet.mem_diff.mp hk).1
    · exact h.behind hk
  · exact h.defs hk

theorem Records.addCopies (h : g.Records vars code) (hx : Numbered vars x p behind) :
    ((copy? vars x).elim g g.addCopy).Regular ∧
      ((copy? vars x).elim g g.addCopy).edges = g.edges ∧
      ∀ c ∈ ((copy? vars x).elim g g.addCopy).copies, c ∈ g.copies ∨ copy? vars x = some c := by
  cases hcopy : copy? vars x with
  | none => exact ⟨h.toRegular, rfl, fun c hc => .inl hc⟩
  | some c =>
    obtain ⟨hdst, hsrc⟩ := hx.copy hcopy
    refine ⟨h.toRegular.addCopy (h.size ▸ hdst) (h.size ▸ hsrc), rfl, ?_⟩
    intro c' hc'
    obtain ⟨id, hget⟩ := Array.mem_iff_getElem?.mp hc'
    rcases getElem?_addCopy.mp hget with hget | ⟨rfl, _⟩
    · exact .inl (Array.mem_of_getElem? hget)
    · exact .inr rfl

theorem Records.addPoint (h : g.Records vars code) (hx : Numbered vars x p behind) :
    (g.addPoint vars x p behind).Records vars ((x, p, behind) :: code) := by
  obtain ⟨weights, heq⟩ := addPoint_eq g vars x p behind
  obtain ⟨hregular, hedges, hcopies⟩ := h.addCopies hx
  rw [heq]
  unfold joinedAt
  dsimp only
  generalize (copy? vars x).elim g g.addCopy = g' at hregular hedges hcopies
  have hsize : g'.edges.size = vars.size := by
    rw [hedges]
    exact h.size
  -- Edges are only added, so those that were recorded before stay.
  obtain ⟨hgrows, hall⟩ := Grows.foldl g'.edges p.defs.toList
    (f := fun edges d => joinedAll edges (conflicts vars x p behind) d)
    (P := fun d edges => ∀ k, k ∈ conflicts vars x p behind → k ≠ d → k ∈ edges.getD d .empty)
    (fun h hd k hk hne => h.mono (hd k hk hne)) (fun edges' hsize' d hd => by
      have hd' : d < vars.size := hx.defs ((KeySet.mem_toList _ d).mp hd)
      refine Grows.joinedAll (fun k hk => ?_) ?_
      · rw [hsize', hsize]
        exact hx.conflicts hk
      · rw [hsize', hsize]
        exact hd')
  generalize p.defs.toList.foldl (fun edges d => joinedAll edges (conflicts vars x p behind) d)
    g'.edges = edges' at hgrows hall
  have hsize' : ({ g' with edges := edges', weights } : Interference).size = g'.size := hgrows.size
  exact {
    copyLists_size := hregular.copyLists_size.trans hsize'.symm
    bothWays := hgrows.bothWays hregular.bothWays
    loopless := hgrows.loopless hregular.loopless
    dst := fun hc => by
      rw [hsize']
      exact hregular.dst hc
    src := fun hc => by
      rw [hsize']
      exact hregular.src hc
    ends := hregular.ends
    size := hsize'.trans hsize
    copies := fun {c} hc => by
      grind [h.copies, mem_cons_of_mem, mem_cons_self]
    apart := fun hmem hd hk hne => by
      rcases mem_cons.mp hmem with heq | hmem
      · obtain ⟨rfl, rfl, rfl⟩ := heq
        exact hall _ ((KeySet.mem_toList _ _).mpr hd) _ hk hne
      · refine hgrows.mono ?_
        rw [hedges]
        exact h.apart hmem hd hk hne }

end Interference

/-- The points of code with what is live behind them. -/
def annotated (code : List Instr) (live : Liveness) : List (Instr × Point × KeySet) :=
  code.zip (live.points.toList.zip live.behind.toList)

theorem interference_eq (code : List Instr) (live : Liveness) : interference code live =
    (annotated code live).foldr (fun t g => g.addPoint live.vars t.1 t.2.1 t.2.2)
      (.blank live.vars.size) := rfl

section

variable {code : List Instr} {returns : Bool} {live : Liveness}

theorem getElem?_annotated {i : Nat} {x : Instr} {p : Point} {behind : KeySet} :
    (annotated code live)[i]? = some (x, p, behind) ↔
      code[i]? = some x ∧ live.points[i]? = some p ∧ live.behind[i]? = some behind := by
  simp only [annotated, getElem?_zip_eq_some, Array.getElem?_toList]

theorem numbered_annotated (h : live.Solves code returns) {x : Instr} {p : Point}
    {behind : KeySet} (hmem : (x, p, behind) ∈ annotated code live) :
    Interference.Numbered live.vars x p behind := by
  obtain ⟨i, hi⟩ := mem_iff_getElem?.mp hmem
  obtain ⟨hx, hp, hbehind⟩ := getElem?_annotated.mp hi
  obtain ⟨p', hp', hdescribes⟩ := h.point hx
  obtain rfl := Option.some.inj (hp.symm.trans hp')
  obtain rfl := Option.some.inj (hbehind.symm.trans hdescribes.behind)
  refine ⟨?_, ?_, ?_⟩
  · intro c hc
    obtain ⟨d, s, _, hd, hs⟩ := eq_mov_of_copy? hc
    exact ⟨h.fits.id?_lt hd, h.fits.id?_lt hs⟩
  · intro k hk
    obtain ⟨r, _, hr⟩ := hdescribes.defs.mp hk
    exact h.fits.id?_lt hr
  · intro k hk
    obtain ⟨s, _, hs⟩ := contains_liveBehind.mp hk
    exact h.below hs

/-- The interference of code records what its instructions make interfere. -/
theorem records_interference (h : live.Solves code returns) :
    (interference code live).Records live.vars (annotated code live) := by
  rw [interference_eq]
  have hnumbered : ∀ t ∈ annotated code live, Interference.Numbered live.vars t.1 t.2.1 t.2.2 :=
    fun _ => numbered_annotated h
  generalize annotated code live = ts at hnumbered
  induction ts with
  | nil => exact Interference.records_blank live.vars
  | cons t ts ih =>
    grind [Interference.Records.addPoint, mem_cons_self, mem_cons_of_mem]

end

end X64Backend.Alloc
