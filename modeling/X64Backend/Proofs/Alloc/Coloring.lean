import Mathlib.Data.List.Nodup
import X64Backend.Alloc.Rounds
import X64Backend.Proofs.Alloc.Interference

/-! # Every register gets a colour or a slot

The registers on the stack are coloured from the palette or spilled, each once. When none is
spilled all registers have colours: their own if they are the machine's, and otherwise that of
the register that stands for them.
-/

namespace X64Backend.Alloc

open Asm Dataflow List

namespace Coloring

variable {w : Worklist} {c : Coloring}

theorem size_start {count : Nat} (h : Vars.machineCount ≤ count) :
    (start count).colors.size = count := by
  simp only [start, size_toArray, length_append, length_map, length_replicate]
  have hall : MachineReg.all.length = Vars.machineCount := by decide
  omega

/-- Machine registers have their own colours from the start. -/
theorem getD_start (count : Nat) (r : MachineReg) :
    (start count).colors.getD r.index none = some r := by
  have hall : (MachineReg.all.map some)[(r.index : Nat)]? = some (some r) := by
    cases r <;> decide
  simp only [start, Array.getD_eq_getD_getElem?, getElem?_toArray]
  rw [getElem?_append_left (List.getElem?_eq_some_iff.mp hall).1, hall]
  rfl

theorem getD_start_of_le {count n : Nat} (h : Vars.machineCount ≤ n) :
    (start count).colors.getD n none = none := by
  have hall : (MachineReg.all.map some).length = Vars.machineCount := by decide
  simp only [start, Array.getD_eq_getD_getElem?, getElem?_toArray]
  rw [getElem?_append_right (hall ▸ h), getElem?_replicate]
  split <;> rfl

/-- One more register is coloured from the palette or spilled. -/
theorem assign_cases (w : Worklist) (c : Coloring) (n : Nat) :
    (∃ r ∈ palette, r ∉ c.taken w n ∧
      c.assign w n = { c with colors := c.colors.setIfInBounds n (some r) }) ∨
    c.assign w n = { c with spilled := n :: c.spilled } := by
  grind [assign, Bool.not_eq_true',
    decide_eq_false_iff_not, mem_of_find?_eq_some]

/-- What colouring registers one after another comes to. -/
structure Assigns (ns : List Nat) (c c' : Coloring) : Prop where
  size : c'.colors.size = c.colors.size
  spilled : ∃ ms : List Nat, ms.Sublist ns ∧ c'.spilled = ms.reverse ++ c.spilled
  other {n : Nat} (h : n ∉ ns) : c'.colors.getD n none = c.colors.getD n none
  done {n : Nat} (h : n ∈ ns) :
    n ∈ c'.spilled ∨ ∃ r ∈ palette, c'.colors.getD n none = some r

theorem foldl_assign {ns : List Nat} (hns : ∀ n ∈ ns, n < c.colors.size) :
    Assigns ns c (ns.foldl (assign w) c) := by
  induction ns generalizing c with
  | nil =>
    exact ⟨rfl, ⟨[], List.Sublist.slnil, rfl⟩, fun _ => rfl, fun h => absurd h not_mem_nil⟩
  | cons n ns ih =>
    have hn := hns n mem_cons_self
    have hns' := fun m hm => hns m (mem_cons_of_mem n hm)
    rw [foldl_cons]
    rcases assign_cases w c n with ⟨r, hr, _, heq⟩ | heq
    · rw [heq]
      have hrest := ih (c := { c with colors := c.colors.setIfInBounds n (some r) })
        (by simpa using hns')
      obtain ⟨ms, hsub, hspilled⟩ := hrest.spilled
      refine ⟨by rw [hrest.size, Array.size_setIfInBounds], ⟨ms, hsub.cons n, hspilled⟩, ?_, ?_⟩
      · intro m hm
        obtain ⟨hne, hm⟩ := ne_and_not_mem_of_not_mem_cons hm
        rw [hrest.other hm, getD_setIfInBounds _ _ hn, if_neg (Ne.symm hne)]
      · intro m hm
        by_cases hmem : m ∈ ns
        · exact hrest.done hmem
        · obtain rfl := (mem_cons.mp hm).resolve_right hmem
          refine .inr ⟨r, hr, ?_⟩
          rw [hrest.other hmem, getD_setIfInBounds _ _ hn, if_pos rfl]
    · rw [heq]
      have hrest := ih (c := { c with spilled := n :: c.spilled }) hns'
      obtain ⟨ms, hsub, hspilled⟩ := hrest.spilled
      refine ⟨hrest.size, ⟨n :: ms, hsub.cons_cons n, ?_⟩, ?_, ?_⟩
      · rw [hspilled, reverse_cons, append_assoc]
        rfl
      · exact fun hm => hrest.other (ne_and_not_mem_of_not_mem_cons hm).2
      · grind [hrest.done, mem_append_right, mem_cons_self]

end Coloring

/-! ## The colours of code -/

/-- With names that are all different a name's colour is the one it is listed with. -/
theorem getElem?_ofList_iff {α : Type} {colors : List (Name × α)} {n : Name} {c : α}
    (h : (colors.map Prod.fst).Nodup) :
    (Std.TreeMap.ofList colors compare)[n]? = some c ↔ (n, c) ∈ colors := by
  have hpairwise : colors.Pairwise fun a b => ¬ compare a.1 b.1 = .eq := by
    grind
  have hlisted : ∀ {c}, (n, c) ∈ colors → (Std.TreeMap.ofList colors compare)[n]? = some c :=
    Std.TreeMap.getElem?_ofList_of_mem Std.ReflCmp.compare_self hpairwise
  constructor
  · intro hget
    have hmem : n ∈ Std.TreeMap.ofList colors compare := by
      rw [← Std.TreeMap.isSome_getElem?_iff_mem, hget]
      rfl
    rw [Std.TreeMap.mem_ofList, contains_eq_mem, decide_eq_true_eq] at hmem
    obtain ⟨⟨n, c'⟩, hmem', rfl⟩ := mem_map.mp hmem
    rw [hlisted hmem'] at hget
    rwa [← Option.some.inj hget]
  · exact hlisted

section

variable {live : Liveness} {code : List Instr} {returns : Bool}

theorem machineCount_le_size (h : live.Solves code returns) :
    Vars.machineCount ≤ live.vars.size :=
  (Array.getElem?_eq_some_iff.mp (h.machine .r15)).1

/-- The first numbers are the machine's, and no others. -/
theorem isMachine_iff (h : live.Solves code returns) {k : Nat} {r : Reg}
    (hk : live.vars.regs[k]? = some r) :
    Vars.isMachine k = true ↔ ∃ q : MachineReg, k = q.index ∧ r = .machine q := by
  constructor
  · intro hmachine
    have hlt : k < 16 := of_decide_eq_true hmachine
    obtain ⟨q, hq⟩ : ∃ q : MachineReg, (q.index : Nat) = k := by
      have hall : ∀ i : Fin 16, ∃ q ∈ MachineReg.all, q.index = i := by decide
      obtain ⟨q, _, hq⟩ := hall ⟨k, hlt⟩
      exact ⟨q, congrArg Fin.val hq⟩
    have hreg := h.machine q
    rw [hq, hk] at hreg
    exact ⟨q, hq.symm, Option.some.inj hreg⟩
  · rintro ⟨q, rfl, _⟩
    simp [Vars.isMachine, Vars.machineCount]

theorem eq_index_of_machine (h : live.Solves code returns) {k : Nat} {q : MachineReg}
    (hk : live.vars.regs[k]? = some (.machine q)) : k = q.index := by
  have hid := h.fits.id?_of_getElem? hk
  rw [h.fits.id?_of_getElem? (h.machine q)] at hid
  exact (Option.some.inj hid).symm

/-- Registers with one name have one number. -/
theorem eq_of_name_eq (h : live.Solves code returns) {j k : Nat} {r q : Reg}
    (hj : live.vars.regs[j]? = some r) (hk : live.vars.regs[k]? = some q)
    (hname : r.name = q.name) : j = k := by
  have hid := h.fits.id?_eq_some.mpr ⟨r, hj, hname⟩
  rw [h.fits.id?_of_getElem? hk] at hid
  exact (Option.some.inj hid).symm

end

namespace Round

/-- What a round found out about code. -/
structure Finds (round : Round) (live : Liveness) (code : List Instr) (returns : Bool) : Prop where
  solves : live.Solves code returns
  vars : round.vars = live.vars
  work : round.work = Worklist.final (interference code live)
  coloring : round.coloring = .ofWorklist round.work

variable {code : List Instr} {returns : Bool} {round : Round} {live : Liveness}

theorem ofCode_finds (h : Round.ofCode returns code = .ok round) :
    ∃ live, round.Finds live code returns := by
  obtain ⟨live, hlive, h⟩ := bind_eq_ok.mp h
  obtain rfl := pure_eq_ok.mp h
  exact ⟨live, analyze_solves hlive, rfl, rfl, rfl⟩

/-- A table has the colours of the registers that are numbered behind the machine's. -/
def Tells (round : Round) (live : Liveness) (colors : Std.TreeMap Name MachineReg) : Prop :=
  ∀ (n : Name) (c : MachineReg), colors[n]? = some c ↔ ∃ k r, Vars.machineCount ≤ k ∧
    live.vars.regs[k]? = some r ∧ r.name = n ∧ round.coloring.color? round.work k = some c

namespace Finds

variable (h : round.Finds live code returns)

include h

theorem ne_machine {k : Nat} {r : Reg} (hle : Vars.machineCount ≤ k)
    (hk : live.vars.regs[k]? = some r) (q : MachineReg) : r ≠ .machine q := by
  grind [eq_index_of_machine, h.solves, q.index.isLt, Vars.machineCount]

theorem sound : round.work.Sound (interference code live) := by
  rw [h.work]
  have hregular := (records_interference h.solves).toRegular
  exact (Worklist.final_induction hregular (P := fun _ => True) trivial fun _ _ _ => trivial).1

theorem size : (interference code live).size = live.vars.size :=
  (records_interference h.solves).size

theorem mem_stack {n : Nat} (hn : n ∈ round.work.stack) :
    Vars.machineCount ≤ n ∧ n < live.vars.size := by
  have hselected := (h.sound.mem_stack n).mp hn
  rw [← h.size]
  exact (h.sound.somewhere n).mp (.inr (.inl hselected))

theorem edges_size : round.work.edges.size = live.vars.size := by
  rw [h.sound.edges_size, h.size]

theorem assigns : Coloring.Assigns round.work.stack (.start live.vars.size) round.coloring := by
  rw [h.coloring, Coloring.ofWorklist, h.edges_size]
  apply Coloring.foldl_assign
  intro n hn
  rw [Coloring.size_start (machineCount_le_size h.solves)]
  exact (h.mem_stack hn).2

/-- Spilled registers are spilled once, and are registers of the code but not the machine's. -/
theorem spilled_spec : (round.spilled.map Reg.name).Nodup ∧ ∀ q ∈ round.spilled,
    (∀ m, q ≠ .machine m) ∧ ∃ x ∈ code, q ∈ uses x ∨ q ∈ defs x := by
  obtain ⟨ms, hsub, hspilled⟩ := h.assigns.spilled
  have hnodup : ms.Nodup := h.sound.nodup.sublist hsub
  have hms : round.spilled = ms.filterMap (live.vars.regs[·]?) := by
    rw [spilled, hspilled, h.vars]
    simp [Coloring.start]
  rw [hms]
  constructor
  · rw [map_filterMap]
    apply hnodup.filterMap
    intro j k n hj hk
    obtain ⟨r, hr, rfl⟩ := Option.map_eq_some_iff.mp hj
    obtain ⟨q, hq, hname⟩ := Option.map_eq_some_iff.mp hk
    exact eq_of_name_eq h.solves hr hq hname.symm
  · intro q hq
    obtain ⟨k, hk, hq⟩ := mem_filterMap.mp hq
    have hmachine := h.ne_machine (h.mem_stack (hsub.mem hk)).1 hq
    refine ⟨hmachine, (h.solves.known hq).resolve_left ?_⟩
    rintro ⟨m, rfl⟩
    exact hmachine m rfl

theorem coloring_spilled (hspilled : round.spilled = []) : round.coloring.spilled = [] := by
  obtain ⟨ms, hsub, hms⟩ := h.assigns.spilled
  cases ms with
  | nil => simpa [Coloring.start] using hms
  | cons k ms =>
    have hk := (h.mem_stack (hsub.mem mem_cons_self)).2
    have hget := Array.getElem?_eq_getElem hk
    have hmem : live.vars.regs[k] ∈ round.spilled := by
      rw [spilled, h.vars, hms]
      exact mem_filterMap.mpr ⟨k, by simp, hget⟩
    rw [hspilled] at hmem
    exact absurd hmem not_mem_nil

/-- What stands for a register: a machine register, which has its own colour, or one that was
taken out, which has a colour of the palette unless it is spilled. -/
theorem root_cases {n : Nat} (hn : n < live.vars.size) :
    (∃ q : MachineReg, round.work.rootOf n = q.index ∧
      round.coloring.color? round.work n = some q) ∨
    round.work.rootOf n ∈ round.work.stack ∧ (round.work.rootOf n ∈ round.coloring.spilled ∨
      ∃ r ∈ palette, round.coloring.color? round.work n = some r) := by
  have hregular := (records_interference h.solves).toRegular
  have hroot := Worklist.final_rootOf hregular (h.size ▸ hn)
  rw [← h.work] at hroot
  unfold Coloring.color?
  rcases hroot with hmachine | hmem
  · have hlt : round.work.rootOf n < live.vars.size := by
      have hlt : round.work.rootOf n < 16 := of_decide_eq_true hmachine
      have hle : 16 ≤ live.vars.size := machineCount_le_size h.solves
      omega
    obtain ⟨q, hq, _⟩ := (isMachine_iff h.solves (Array.getElem?_eq_getElem hlt)).mp hmachine
    refine .inl ⟨q, hq, ?_⟩
    rw [h.assigns.other, hq, Coloring.getD_start]
    intro hstack
    have hle := (h.mem_stack hstack).1
    simp only [Vars.isMachine, decide_eq_true_eq] at hmachine
    omega
  · exact .inr ⟨hmem, h.assigns.done hmem⟩

/-- Where nothing is spilled all registers have colours. -/
theorem color_root (hspilled : round.spilled = []) {n : Nat} (hn : n < live.vars.size) :
    (∃ q : MachineReg, round.work.rootOf n = q.index ∧
      round.coloring.color? round.work n = some q) ∨
    ∃ r ∈ palette, round.coloring.color? round.work n = some r := by
  refine (h.root_cases hn).imp_right fun ⟨_, hroot⟩ => hroot.resolve_left ?_
  rw [h.coloring_spilled hspilled]
  exact not_mem_nil

/-- Where nothing copies the stack and frame pointers, all colours are of the palette. -/
theorem color_mem_palette (hspilled : round.spilled = [])
    (hcopies : ∀ d s, Instr.mov (.reg d) (.reg s) ∈ code → ∀ r ∈ [d, s],
      r.name ≠ Reg.rsp.name ∧ r.name ≠ Reg.rbp.name) {k : Nat} {c : MachineReg}
    (hle : Vars.machineCount ≤ k) (hlt : k < live.vars.size)
    (hcolor : round.coloring.color? round.work k = some c) : c ∈ palette := by
  have hrecords := records_interference h.solves
  have hid : ∀ {r : Reg} {n : Nat}, r.name ≠ Reg.rsp.name ∧ r.name ≠ Reg.rbp.name →
      live.vars.id? r = some n → n ≠ MachineReg.rsp.index ∧ n ≠ MachineReg.rbp.index := by
    intro r n hr hn
    obtain ⟨q, hq, hname⟩ := h.solves.fits.id?_eq_some.mp hn
    constructor
    · grind [h.solves.machine, Option.some.inj]
    · grind [h.solves.machine, Option.some.inj]
  have hroot : round.work.rootOf k ≠ MachineReg.rsp.index ∧
      round.work.rootOf k ≠ MachineReg.rbp.index := by
    rw [h.work]
    refine Worklist.final_rootOf_of_copies hrecords.toRegular
      (p := fun n => n ≠ MachineReg.rsp.index ∧ n ≠ MachineReg.rbp.index) ?_ (h.size ▸ hlt) ?_
    · intro c hc
      obtain ⟨⟨x, p, behind⟩, hmem, hcopy⟩ := hrecords.copies hc
      obtain ⟨i, hi⟩ := mem_iff_getElem?.mp hmem
      have hx := mem_of_getElem? (getElem?_annotated.mp hi).1
      obtain ⟨d, s, rfl, hd, hs⟩ := eq_mov_of_copy? hcopy
      have hends := hcopies d s hx
      exact ⟨hid (hends d (by simp)) hd, hid (hends s (by simp)) hs⟩
    · have hrsp := MachineReg.rsp.index.isLt
      have hrbp := MachineReg.rbp.index.isLt
      simp only [Vars.machineCount] at hle
      omega
  rcases h.color_root hspilled hlt with ⟨q, hq, hcolor'⟩ | ⟨q, hq, hcolor'⟩
  · obtain rfl := Option.some.inj (hcolor.symm.trans hcolor')
    rw [hq] at hroot
    cases c <;> first | decide | exact absurd rfl hroot.1 | exact absurd rfl hroot.2
  · obtain rfl := Option.some.inj (hcolor.symm.trans hcolor')
    exact hq

theorem mem_numbered {n : Nat} {r : Reg} :
    (r, n) ∈ round.vars.regs.toList.zipIdx.drop Vars.machineCount ↔
      Vars.machineCount ≤ n ∧ live.vars.regs[n]? = some r := by
  rw [h.vars, mem_iff_getElem?]
  simp only [getElem?_drop, getElem?_zipIdx, Option.map_eq_some_iff, Prod.mk.injEq,
    Array.getElem?_toList, Nat.zero_add]
  constructor
  · rintro ⟨i, q, hq, rfl, rfl⟩
    exact ⟨by omega, hq⟩
  · rintro ⟨hle, hr⟩
    refine ⟨n - Vars.machineCount, r, ?_, rfl, by omega⟩
    rwa [Nat.add_sub_cancel' hle]

theorem nodup_names : ((round.vars.regs.toList.zipIdx.drop Vars.machineCount).map
    fun p => p.1.name).Nodup := by
  have hnames : (live.vars.regs.toList.map Reg.name).Nodup := by
    rw [nodup_iff_pairwise_ne, pairwise_map, pairwise_iff_getElem]
    intro j k hj hk hlt hname
    have hj' : live.vars.regs[j]? = some live.vars.regs.toList[j] := by simp
    have hk' : live.vars.regs[k]? = some live.vars.regs.toList[k] := by simp
    exact Nat.ne_of_lt hlt (eq_of_name_eq h.solves hj' hk' hname)
  have heq : (round.vars.regs.toList.zipIdx.map fun p => p.1.name) =
      live.vars.regs.toList.map Reg.name := by
    rw [h.vars]
    nth_rewrite 2 [← zipIdx_map_fst 0 live.vars.regs.toList]
    rw [map_map]
    rfl
  rw [map_drop, heq]
  exact hnames.sublist (drop_sublist _ _)

theorem exists_color (hspilled : round.spilled = []) {k : Nat} (hk : k < live.vars.size) :
    ∃ c, round.coloring.color? round.work k = some c := by
  grind [h.color_root]

/-- Without spilled registers there are colours for all registers but the machine's. -/
theorem colors_spec (hspilled : round.spilled = []) :
    ∃ colors, round.colors = .ok colors ∧ round.Tells live (.ofList colors) ∧
      ∀ (n : Name) (c : MachineReg),
        (Std.TreeMap.ofList colors compare)[n]? = some c → (n, c) ∈ colors := by
  cases hcolors : round.colors with
  | error d =>
    -- Every numbered register has a colour, so no lookup fails.
    obtain ⟨⟨r, n⟩, hmem, hfail⟩ := exists_of_mapM_eq_error hcolors
    obtain ⟨_, hget⟩ := h.mem_numbered.mp hmem
    obtain ⟨q, hq⟩ := h.exists_color hspilled (Array.getElem?_eq_some_iff.mp hget).1
    dsimp only at hfail
    rw [hq] at hfail
    cases hfail
  | ok colors =>
    have hall : List.Forall₂ (fun p y => round.coloring.color? round.work p.2 = some y.2 ∧
        p.1.name = y.1) (round.vars.regs.toList.zipIdx.drop Vars.machineCount) colors := by
      refine (mapM_eq_ok.mp hcolors).imp ?_
      intro p y hy
      dsimp only at hy
      split at hy
      next c hc =>
        obtain rfl := Except.ok.inj hy
        exact ⟨hc, rfl⟩
      next => cases hy
    -- Names are told apart, so the table has an entry for each.
    have hnames : (colors.map Prod.fst).Nodup := by
      have heq : colors.map Prod.fst =
          (round.vars.regs.toList.zipIdx.drop Vars.machineCount).map fun p => p.1.name := by
        generalize round.vars.regs.toList.zipIdx.drop Vars.machineCount = ps at hall
        clear hcolors
        induction hall with
        | nil => rfl
        | cons hy _ ih => rw [map_cons, map_cons, ih, hy.2]
      rw [heq]
      exact h.nodup_names
    refine ⟨colors, rfl, fun n c => ?_, fun n c => (getElem?_ofList_iff hnames).mp⟩
    rw [getElem?_ofList_iff hnames]
    constructor
    · intro hmem
      obtain ⟨⟨r, k⟩, hp, hcolor, hname⟩ := exists_mem_of_forall₂ hall hmem
      obtain ⟨hle, hr⟩ := h.mem_numbered.mp hp
      exact ⟨k, r, hle, hr, hname, hcolor⟩
    · rintro ⟨k, r, hle, hr, rfl, hcolor⟩
      obtain ⟨⟨n, c'⟩, hmem, hcolor', hname⟩ :=
        exists_mem_of_forall₂ hall.flip (h.mem_numbered.mpr ⟨hle, hr⟩)
      obtain rfl := Option.some.inj (hcolor.symm.trans hcolor')
      rwa [hname]

end Finds

end Round

end X64Backend.Alloc
