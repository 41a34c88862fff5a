import Mathlib.Data.List.Count
import X64Backend.Proofs.Alloc.Closing

/-! # Finished code

What finishing makes of an instruction that stays is the instruction with its registers
renamed, if slots are seen as registers before and after it. What it leaves out are the moves
that keep unused registers. So finished code runs as the code before the last round does.
-/

namespace X64Backend.Asm.Mem

variable {φ ψ : Reg → Reg} {m : Mem}

theorem mapRegs_congr (h : ∀ r ∈ m.namedRegs, φ r = ψ r) : m.mapRegs φ = m.mapRegs ψ := by
  obtain ⟨base, index, disp⟩ := m
  cases base <;> cases index <;> simp_all [mapRegs, namedRegs]

theorem regs_mapRegs (hrip : ∀ r, φ r = .rip ↔ r = .rip) : (m.mapRegs φ).regs = m.regs.map φ := by
  obtain ⟨base, index, disp⟩ := m
  unfold regs
  rw [List.map_append]
  congr 1
  · cases base with
    | none => rfl
    | some r =>
      simp only [mapRegs, Option.map_some]
      by_cases hr : r = .rip
      · rw [hr, (hrip .rip).mpr rfl]
        rfl
      · have hrip' : φ r ≠ .rip := fun h => hr ((hrip r).mp h)
        simp
  · cases index <;> rfl

end X64Backend.Asm.Mem

namespace X64Backend.Alloc

open Asm Machine Dataflow List

/-! ## Slots numbered anew -/

namespace Finish

variable {f : Finish} {j k : Nat}

theorem countP_le_lt {ks : List Nat} (hk : k ∈ ks) (hjk : j < k) :
    (ks.countP fun i : Nat => (i : Int) ≤ (j : Int)) <
      ks.countP fun i : Nat => (i : Int) ≤ (k : Int) := by
  have hfilter : (ks.countP fun i : Nat => (i : Int) ≤ (j : Int)) =
      (ks.filter fun i : Nat => (i : Int) ≤ (k : Int)).countP
        fun i : Nat => (i : Int) ≤ (j : Int) := by
    rw [countP_filter]
    refine countP_congr fun i _ => ?_
    simp only [decide_eq_true_eq, Bool.and_eq_true]
    omega
  rw [hfilter, countP_eq_length_filter (l := ks), countP_lt_length_iff]
  refine ⟨k, mem_filter.mpr ⟨hk, by simp⟩, ?_⟩
  simpa using hjk

theorem renumber?_inj (hj : j ∈ f.kept) (hk : k ∈ f.kept) (h : f.renumber? j = f.renumber? k) :
    j = k := by
  have hcount : ∀ {i : Nat}, i ∈ f.kept →
      f.renumber? i = some (f.kept.countP fun id : Nat => (id : Int) ≤ (i : Int)) := by
    intro i hi
    rw [renumber?, if_pos]
    rw [any_eq_true]
    exact ⟨i, hi, by simp⟩
  rw [hcount hj, hcount hk] at h
  have heq := Option.some.inj h
  rcases Nat.lt_trichotomy j k with hlt | hjk | hlt
  · have := countP_le_lt hk hlt
    omega
  · exact hjk
  · have := countP_le_lt hj hlt
    omega

/-- The register that has the slot with a new number. -/
def home (f : Finish) (j : Nat) : Reg :=
  match f.kept.find? fun k : Nat => f.renumber? k = some j with
  | some k => homeOf f.slots k
  | none => .rip

theorem home_of_renumber (hk : k ∈ f.kept) (hj : f.renumber? k = some j) :
    f.home j = homeOf f.slots k := by
  unfold home
  split
  next i hi =>
    have hi' : f.renumber? i = some j := by simpa using find?_some hi
    rw [renumber?_inj (mem_of_find?_eq_some hi) hk (hi'.trans hj.symm)]
  next hnone =>
    have := find?_eq_none.mp hnone k hk
    simp [hj] at this

/-- All new numbers are given out. -/
theorem exists_renumber (hdense : Dense f.slots) (hj : 0 < j ∧ j ≤ f.kept.length) :
    ∃ k ∈ f.kept, f.renumber? k = some j := by
  have hnodup : f.kept.Nodup := List.Pairwise.filter _ (nodup_numbers hdense)
  have hmap : (f.kept.map fun k : Nat => f.renumber? k).Nodup :=
    hnodup.map_on fun i hi k hk h => renumber?_inj hi hk h
  have hsub : (f.kept.map fun k : Nat => f.renumber? k) ⊆
      (List.range' 1 f.kept.length).map some := by
    intro o ho
    obtain ⟨k, hk, rfl⟩ := mem_map.mp ho
    obtain ⟨i, hi, hpos, hle⟩ := renumber?_of_mem hk
    rw [hi]
    refine mem_map_of_mem (mem_range'_1.mpr ⟨hpos, ?_⟩)
    omega
  have hperm := (hmap.subperm hsub).perm_of_length_le (by simp)
  have hmem : some j ∈ (List.range' 1 f.kept.length).map some :=
    mem_map_of_mem (mem_range'_1.mpr ⟨hj.1, by omega⟩)
  obtain ⟨k, hk, heq⟩ := mem_map.mp (hperm.mem_iff.mpr hmem)
  exact ⟨k, hk, heq⟩

end Finish

namespace Closing

variable {C : Closing} {j k : Nat} {a b : Operand} {m : Mem} {x y : Instr} {r : Reg}
  {sym : Name → Prop}
variable {q : MachineReg}

/-- The register that has a slot with a new number. -/
theorem exists_home (C : Closing) (hj : 0 < j ∧ j ≤ C.f.kept.length) :
    ∃ (n : Name) (k : Nat), C.f.slots[n]? = some k ∧ C.f.renumber? k = some j ∧
      Reg.ofName n = .abstract n ∧ C.f.home j = .abstract n := by
  obtain ⟨k, hk, hkj⟩ := Finish.exists_renumber C.stage.dense hj
  obtain ⟨⟨n, hn⟩, _⟩ := Finish.mem_kept.mp hk
  have hproper := (C.stage.housing C.small).proper hn
  refine ⟨n, k, hn, hkj, hproper, ?_⟩
  rw [Finish.home_of_renumber hk hkj, homeOf_eq C.stage.dense hn, hproper]

/-- The registers that have slots with new numbers. -/
theorem homes (C : Closing) : Homes C.f.home C.f.kept.length where
  small := by
    have hle : C.f.kept.length ≤ (C.f.slots.toList.map Prod.snd).length := length_filter_le _ _
    rw [length_map, Std.TreeMap.length_toList] at hle
    exact Nat.lt_of_le_of_lt hle C.small
  inj {i j} hi hj h := by
    obtain ⟨n, k, hn, hki, _, hhome⟩ := C.exists_home hi
    obtain ⟨n', l, hn', hlj, _, hhome'⟩ := C.exists_home hj
    obtain rfl := Reg.abstract.inj (hhome.symm.trans (h.trans hhome'))
    obtain rfl := Option.some.inj (hn.symm.trans hn')
    exact Option.some.inj (hki.symm.trans hlj)
  proper hj := by
    obtain ⟨n, k, _, _, hproper, hhome⟩ := C.exists_home hj
    rw [hhome]
    exact hproper
  abstract hj := by
    obtain ⟨n, k, _, _, _, hhome⟩ := C.exists_home hj
    rw [hhome]
    rfl

/-! ## Instructions that stay -/

/-- Registers for which finishing puts the one that they become. -/
def Finishable (C : Closing) (r : Reg) : Prop :=
  InPalette (C.f.reg r) ∧ C.f.final r = C.f.reg r

theorem reg_machine (C : Closing) (q : MachineReg) : C.f.reg (.machine q) = .machine q :=
  reg_of_none (C.colors_machine q)

theorem not_finishable_rbp (C : Closing) : ¬ C.Finishable .rbp := by
  rintro ⟨h, _⟩
  rw [show C.f.reg .rbp = .rbp from C.reg_machine .rbp] at h
  exact not_inPalette_rbp h

theorem reg_eq_rip (C : Closing) (r : Reg) : C.f.reg r = .rip ↔ r = .rip := by
  cases hc : C.f.colors[r.name]? with
  | none => rw [reg_of_none hc]
  | some c =>
    rw [reg_of_color hc]
    refine ⟨nofun, ?_⟩
    rintro rfl
    rw [C.colors_rip] at hc
    cases hc

theorem plain_finished (hm : m.Plain C.Finishable sym) :
    (m.mapRegs C.f.reg).Plain InPalette sym ∧ m.mapRegs C.f.reg = m.mapRegs C.f.final := by
  have hrbp : C.f.reg .rbp = .rbp := C.reg_machine .rbp
  obtain ⟨hdisp, ⟨hbase, hindex, hframe⟩ | hregs⟩ := hm
  · refine ⟨⟨hdisp, .inl ⟨?_, ?_, hframe⟩⟩, Mem.mapRegs_congr fun r hr => ?_⟩
    · rw [Mem.mapRegs, hbase, Option.map_some, hrbp]
    · rw [Mem.mapRegs, hindex, Option.map_none]
    · grind [Mem.namedRegs, C.final_machine]
  · refine ⟨⟨hdisp, .inr ?_⟩, Mem.mapRegs_congr fun r hr => ?_⟩
    · rw [Mem.regs_mapRegs C.reg_eq_rip, forall_mem_map]
      exact fun r hr => (hregs r hr).1
    · by_cases hrip : r = .rip
      · rw [(C.reg_eq_rip r).mpr hrip, C.final_rip.mpr hrip]
      · exact (hregs r (Shape.mem_regs_of_named (a := .mem m) hr hrip)).2.symm

theorem mem_finished {n : Mem} (hm : m.Plain C.Finishable sym)
    (h : C.f.mem (m.mapRegs C.f.reg) = .ok n) :
    n.Plain InPalette sym ∧ n = m.mapRegs C.f.final := by
  obtain ⟨hplain, heq⟩ := plain_finished hm
  rw [Finish.mem, slotNumber?_plain hplain not_inPalette_rbp] at h
  obtain rfl := Except.ok.inj h
  exact ⟨hplain, heq⟩

/-- An operand of finished code. -/
abbrev Done (C : Closing) (sym : Name → Prop) (a : Operand) : Prop :=
  a.Fine InPalette (fun k => 0 < k ∧ k ≤ C.f.kept.length) sym

/-- What becomes of an operand is the operand with its registers renamed, if slots are seen as
registers. -/
theorem operand_finished (ha : a.Fine C.Finishable (· ∈ C.f.kept) sym)
    (h : (a.mapRegs C.f.reg).mapMem C.f.mem = .ok b) :
    C.Done sym b ∧ homed C.f.home b = (homed (homeOf C.f.slots) a).mapRegs C.f.final := by
  cases a with
  | reg r =>
    obtain rfl := Except.ok.inj h
    exact ⟨ha.1, congrArg Operand.reg ha.2.symm⟩
  | const c =>
    obtain rfl := Except.ok.inj h
    exact ⟨ha, rfl⟩
  | absent =>
    obtain rfl := Except.ok.inj h
    exact ⟨trivial, rfl⟩
  | mem m =>
    obtain ⟨n, hn, hb⟩ := bind_eq_ok.mp h
    obtain rfl := pure_eq_ok.mp hb
    rcases ha with ⟨k, hk, rfl⟩ | hm
    · have hslot : (Mem.slot k).mapRegs C.f.reg = .slot k := by
        have hrbp : C.f.reg .rbp = .rbp := C.reg_machine .rbp
        simp [Mem.mapRegs, Mem.slot, Mem.offset, Mem.baseOf, hrbp]
      obtain ⟨j, hj, hpos, hle⟩ := Finish.renumber?_of_mem hk
      rw [hslot, Finish.mem, slotNumber?_slot (isSlot_of_kept hk)] at hn
      simp only [hj] at hn
      obtain rfl := Except.ok.inj hn
      have hjslot : IsSlot j := ⟨hpos, Nat.lt_of_le_of_lt hle C.homes.small⟩
      refine ⟨.inl ⟨j, ⟨hpos, hle⟩, rfl⟩, ?_⟩
      rw [homed_slot _ hjslot, homed_slot _ (isSlot_of_kept hk), Operand.mapRegs,
        (slotted_of_kept hk).final, Finish.home_of_renumber hk hj]
    · obtain ⟨hplain, heq⟩ := mem_finished hm hn
      refine ⟨.inr hplain, ?_⟩
      rw [homed_plain _ hplain not_inPalette_rbp, homed_plain _ hm C.not_finishable_rbp, heq]
      rfl

theorem unary_finished (make : Operand → Instr) (ha : a.Fine C.Finishable (· ∈ C.f.kept) sym)
    (h : (do return make (← (a.mapRegs C.f.reg).mapMem C.f.mem)) = Except.ok y) :
    ∃ b, y = make b ∧ C.Done sym b ∧
      homed C.f.home b = (homed (homeOf C.f.slots) a).mapRegs C.f.final := by
  obtain ⟨b, hb, hy⟩ := bind_eq_ok.mp h
  exact ⟨b, (pure_eq_ok.mp hy).symm, operand_finished ha hb⟩

theorem pair_finished (make : Operand → Operand → Instr)
    (ha : a.Fine C.Finishable (· ∈ C.f.kept) sym ∧ b.Fine C.Finishable (· ∈ C.f.kept) sym)
    (h : (do
      let a ← (a.mapRegs C.f.reg).mapMem C.f.mem
      let b ← (b.mapRegs C.f.reg).mapMem C.f.mem
      return make a b) = Except.ok y) :
    ∃ a' b', y = make a' b' ∧ (C.Done sym a' ∧ C.Done sym b') ∧
      homed C.f.home a' = (homed (homeOf C.f.slots) a).mapRegs C.f.final ∧
      homed C.f.home b' = (homed (homeOf C.f.slots) b).mapRegs C.f.final := by
  grind [bind_eq_ok, operand_finished, pure_eq_ok]

/-- What becomes of an instruction is the instruction with its registers renamed, if slots are
seen as registers. -/
theorem instr_replaced (hx : x.Fine C.Finishable (· ∈ C.f.kept) sym)
    (h : (x.mapRegs C.f.reg).mapMem C.f.mem = .ok y) :
    y.Fine InPalette (fun k => 0 < k ∧ k ≤ C.f.kept.length) sym ∧
      homedInstr C.f.home y = (C.view x).mapRegs C.f.final := by
  cases x with
  | movAbs d v =>
    obtain rfl := Except.ok.inj h
    exact ⟨hx.1, congrArg (Instr.movAbs · v) hx.2.symm⟩
  | mov d a | cmp d a =>
    obtain ⟨b, b', rfl, hdone, heq, heq'⟩ := pair_finished _ hx h
    exact ⟨hdone, congrArg₂ _ heq heq'⟩
  | lea d m =>
    obtain ⟨n, hn, hy⟩ := bind_eq_ok.mp h
    obtain rfl := pure_eq_ok.mp hy
    obtain ⟨hplain, heq⟩ := mem_finished hx.2 hn
    exact ⟨⟨hx.1.1, hplain⟩, congrArg₂ Instr.lea hx.1.2.symm heq⟩
  | set c d =>
    obtain rfl := Except.ok.inj h
    exact ⟨hx.1, congrArg (Instr.set c) hx.2.symm⟩
  | call a =>
    rcases hx with ⟨n, rfl⟩ | ha
    · obtain rfl := Except.ok.inj h
      exact ⟨.inl ⟨n, rfl⟩, rfl⟩
    · obtain ⟨b, rfl, hdone, heq⟩ := unary_finished .call ha h
      exact ⟨.inr hdone, congrArg Instr.call heq⟩
  | arith op d a =>
    rcases hx with ⟨rfl, hop, v, rfl⟩ | hx
    · obtain rfl := Except.ok.inj h
      -- The stack pointer becomes no other register.
      have hrsp : C.f.reg .rsp = .rsp := C.reg_machine .rsp
      have hrsp' : C.f.final .rsp = .rsp := C.final_machine .rsp
      refine ⟨.inl ⟨congrArg Operand.reg hrsp, hop, v, rfl⟩, ?_⟩
      simp only [homedInstr, Instr.mapOperands, Instr.mapRegs, Operand.mapRegs, homed_reg, hrsp,
        hrsp', Operand.imm, homed_const]
    · obtain ⟨b, b', rfl, hdone, heq, heq'⟩ := pair_finished (.arith op) hx h
      exact ⟨.inr hdone, congrArg₂ (Instr.arith op) heq heq'⟩
  | imul d a =>
    obtain ⟨b, rfl, hdone, heq⟩ := unary_finished _ hx.2 h
    exact ⟨⟨hx.1.1, hdone⟩, congrArg₂ Instr.imul hx.1.2.symm heq⟩
  | imul3 d a k =>
    obtain ⟨b, rfl, hdone, heq⟩ := unary_finished (.imul3 (C.f.reg d) · k) hx.2 h
    exact ⟨⟨hx.1.1, hdone⟩, congrArg₂ (Instr.imul3 · · k) hx.1.2.symm heq⟩
  | idiv a | neg a | push a =>
    obtain ⟨b, rfl, hdone, heq⟩ := unary_finished _ hx h
    exact ⟨hdone, congrArg _ heq⟩
  | shl a k =>
    obtain ⟨b, rfl, hdone, heq⟩ := unary_finished (.shl · k) hx h
    exact ⟨hdone, congrArg (Instr.shl · k) heq⟩
  | ret | popRbp => exact hx.elim
  | _ =>
    obtain rfl := Except.ok.inj h
    exact ⟨trivial, rfl⟩

/-! ## Moves that are left out -/

theorem isIdle_reg : C.f.isIdle (.reg r) = true ↔
    ∃ u ∈ C.f.unused, r = .machine u ∨ r = .saved (.machine u) := by
  simp only [Finish.isIdle, Finish.isUnused, any_eq_true, Bool.or_eq_true, decide_eq_true_eq]

theorem isIdle_slot (hk : IsSlot k) : C.f.isIdle (.mem (.slot k)) = true ↔ k ∈ C.f.dropped := by
  simp only [Finish.isIdle, slotNumber?_slot hk, any_eq_true, decide_eq_true_eq]
  constructor
  · rintro ⟨i, hi, heq⟩
    rwa [← Int.ofNat_inj.mp heq]
  · exact fun hmem => ⟨k, hmem, rfl⟩

theorem isIdle_machine : C.f.isIdle (.reg (.machine q)) = true ↔ q ∈ C.f.unused := by
  rw [isIdle_reg]
  constructor
  · rintro ⟨u, hu, h | h⟩
    · rwa [Reg.machine.inj h]
    · cases h
  · exact fun hq => ⟨q, hq, .inl rfl⟩

theorem mem_dropped_saved (hk : C.f.slots[(Reg.saved (.machine q)).name]? = some k)
    (h : k ∈ C.f.dropped) : q ∈ C.f.unused := by
  obtain ⟨u, hu, hk'⟩ := mem_filterMap.mp h
  have hname := C.stage.dense.inj hk hk'
  have hreg := (Reg.Proper.name_inj (Reg.ofName_saved (.machine q))
    (Reg.ofName_saved (.machine u))).mp hname
  rwa [saved_inj hreg]

/-- What keeps a register is idle only if that is unused. -/
theorem unused_of_isIdle_keeper (h : C.f.isIdle (keeper C.f.slots q) = true) : q ∈ C.f.unused := by
  cases hn : C.f.slots[(Reg.saved (.machine q)).name]? with
  | none =>
    rw [keeper_of_none hn, isIdle_reg] at h
    obtain ⟨u, hu, h | h⟩ := h
    · cases h
    · rwa [saved_inj h]
  | some k =>
    rw [keeper_of_slot hn, isIdle_slot (isSlot hn)] at h
    exact mem_dropped_saved hn h

/-- The function's own instructions stay. -/
theorem isDropped_own (hx : x ∈ C.mid) : C.f.isDropped x = false := by
  have hfine := C.stage.fine hx
  have hidle : ∀ {a : Operand}, a.Fine (fun r => Nameable C.f.slots C.issued r ∧ Own r)
      (fun k => ∃ n : Name, C.f.slots[n]? = some k ∧ ¬ SavedName n) (· ∉ labels C.first) →
      C.f.isIdle a = false := by
    intro a ha
    cases a with
    | reg r =>
      rw [Bool.eq_false_iff, ne_eq, isIdle_reg]
      rintro ⟨u, hu, h | h⟩
      · exact ha.2.callee u (C.unused u hu) h
      · exact ha.2.saved ⟨u, congrArg Reg.name h⟩
    | mem m =>
      rcases ha with ⟨k, hk, rfl⟩ | hm
      · grind [kept_of_own, isIdle_slot, isSlot_of_kept, Finish.mem_kept]
      · simp only [Finish.isIdle, slotNumber?_plain hm C.not_own_rbp]
    | _ => rfl
  cases x with
  | mov d a =>
    rw [Finish.isDropped, hidle hfine.1, hidle hfine.2]
    rfl
  | _ => rfl

/-- A register that code names and that keeps no unused one is one that finishing knows. -/
theorem finishable_of_named (hx : x ∈ C.code) (hr : r ∈ x.namedRegs)
    (hname : Nameable C.f.slots C.issued r) (hne : ∀ u ∈ C.f.unused, r ≠ .saved (.machine u)) :
    C.Finishable r := by
  refine ⟨?_, final_of_ne hne⟩
  have haccess := Shape.mem_uses_or_defs_of_named hr hname.workable.rip
  rcases C.color hx haccess with ⟨q, rfl⟩ | ⟨c, hc⟩
  · rw [C.reg_machine]
    exact ⟨q, hname.workable.mem_palette, rfl⟩
  · exact ⟨c, C.palette hc, reg_of_color hc⟩

/-- What keeps a register that is used. -/
theorem keeper_fine (hq : q ∈ MachineReg.calleeSaved) (hu : q ∉ C.f.unused) :
    (keeper C.f.slots q).Fine C.Finishable (· ∈ C.f.kept) (· ∉ labels C.first) := by
  have hsave : .mov (keeper C.f.slots q) (.reg (.machine q)) ∈ C.code := by
    simp only [code, enclosed, saves, mem_append, mem_map]
    exact .inl (.inl (.inl ⟨q, hq, rfl⟩))
  cases hn : C.f.slots[(Reg.saved (.machine q)).name]? with
  | none =>
    rw [keeper_of_none hn] at hsave ⊢
    refine finishable_of_named hsave mem_cons_self ⟨workable_saved q, hn, ?_⟩ ?_
    · exact fun j hj => absurd ⟨q, congrArg Reg.name hj.symm⟩ (not_savedName_issued j)
    · intro u hmem heq
      exact hu (saved_inj heq ▸ hmem)
  | some k =>
    rw [keeper_of_slot hn]
    refine .inl ⟨k, Finish.mem_kept.mpr ⟨⟨_, hn⟩, fun hdropped => hu ?_⟩, rfl⟩
    exact mem_dropped_saved hn hdropped

theorem finishable_callee (hq : q ∈ MachineReg.calleeSaved) : C.Finishable (.machine q) := by
  refine ⟨?_, (C.final_machine q).trans (C.reg_machine q).symm⟩
  rw [C.reg_machine]
  exact ⟨q, (workable_calleeSaved hq).mem_palette, rfl⟩

/-- Instructions that stay are over registers that finishing knows and slots that stay. -/
theorem fine_of_stays (hx : x ∈ C.code) (hstays : C.f.isDropped x = false) :
    x.Fine C.Finishable (· ∈ C.f.kept) (· ∉ labels C.first) := by
  have hx' := hx
  simp only [code, enclosed, saves, restores, mem_append, mem_map,
    mem_singleton] at hx'
  have hused : ∀ {q : MachineReg} {a b : Operand}, x = .mov a b →
      (a = .reg (.machine q) ∨ b = .reg (.machine q)) → q ∉ C.f.unused := by
    grind [isIdle_machine, Finish.isDropped, Bool.or_eq_false_iff]
  rcases hx' with ((⟨q, hq, heq⟩ | hmid) | ⟨q, hq, heq⟩) | rfl
  · have hu := hused heq.symm (.inr rfl)
    rw [← heq]
    exact ⟨keeper_fine hq hu, finishable_callee hq⟩
  · refine (C.stage.fine hmid).imp ?_ fun k hk => kept_of_own hk
    rintro r hr ⟨hname, hown⟩
    refine finishable_of_named hx hr hname ?_
    rintro u _ rfl
    exact hown.saved ⟨u, rfl⟩
  · have hu := hused heq.symm (.inl rfl)
    rw [← heq]
    exact ⟨finishable_callee hq, keeper_fine hq hu⟩
  · trivial

/-- Instructions that are left out copy a register to itself. -/
theorem becomes_of_dropped (hx : x ∈ C.code) (hdropped : C.f.isDropped x = true) (text : Bytes) :
    Becomes C.f.final (C.view x) (.comment text) := by
  have hx' := hx
  simp only [code, enclosed, saves, restores, mem_append, mem_map,
    mem_singleton] at hx'
  rcases hx' with ((⟨q, _, rfl⟩ | hmid) | ⟨q, _, rfl⟩) | rfl
  · have hu : q ∈ C.f.unused := (Bool.or_eq_true_iff.mp hdropped).elim unused_of_isIdle_keeper
      isIdle_machine.mp
    rw [view_save]
    exact .copy text ((final_saved hu).trans (C.final_machine q).symm)
  · rw [isDropped_own hmid] at hdropped
    cases hdropped
  · have hu : q ∈ C.f.unused := (Bool.or_eq_true_iff.mp hdropped).elim isIdle_machine.mp
      unused_of_isIdle_keeper
    rw [view_restore]
    exact .copy text ((C.final_machine q).trans (final_saved hu).symm)
  · cases hdropped

/-! ## All code -/

/-- What finishing makes of an instruction that stays. -/
theorem instr_finished (hx : x ∈ C.code) (hstays : C.f.isDropped x = false)
    (h : C.f.instr x = .ok y) :
    y.Fine InPalette (fun k => 0 < k ∧ k ≤ C.f.kept.length) (· ∉ labels C.first) ∧
      Becomes C.f.final (C.view x) (homedInstr C.f.home y) := by
  obtain ⟨z, hz, h⟩ := bind_eq_ok.mp h
  obtain ⟨_, _, h⟩ := bind_eq_ok.mp h
  obtain rfl := pure_eq_ok.mp h
  obtain ⟨hfine, heq⟩ := instr_replaced (fine_of_stays hx hstays) hz
  rcases withoutSelfCopy_cases z with ⟨r, text, rfl, hcomment⟩ | hsame
  · rw [hcomment]
    -- with slots seen as registers the instruction is such a copy too
    exact ⟨trivial, becomes_comment heq.symm text⟩
  · rw [hsame, heq]
    exact ⟨hfine, .renamed _⟩

end Closing

/-- What finishing makes of an instruction: nothing if it is left out. -/
inductive Finish.Makes (f : Finish) (x : Instr) : List Instr → Prop
  | stays {y : Instr} (hx : f.isDropped x = false) (hy : f.instr x = .ok y) : Makes f x [y]
  | dropped (hx : f.isDropped x = true) : Makes f x []

theorem Finish.exists_makes {f : Finish} {xs out : List Instr} (h : f.code xs = .ok out) :
    ∃ blocks, out = blocks.flatten ∧ List.Forall₂ f.Makes xs blocks := by
  unfold Finish.code at h
  induction xs generalizing out with
  | nil =>
    obtain rfl := pure_eq_ok.mp h
    exact ⟨[], rfl, .nil⟩
  | cons x xs ih =>
    cases hx : f.isDropped x with
    | true =>
      rw [filter_cons_of_neg (by simp [hx])] at h
      obtain ⟨blocks, hout, hblocks⟩ := ih h
      exact ⟨[] :: blocks, hout, .cons (.dropped hx) hblocks⟩
    | false =>
      rw [filter_cons_of_pos (by simp [hx]), mapM_cons] at h
      obtain ⟨y, hy, h⟩ := bind_eq_ok.mp h
      obtain ⟨ys, hys, h⟩ := bind_eq_ok.mp h
      obtain rfl := pure_eq_ok.mp h
      obtain ⟨blocks, rfl, hblocks⟩ := ih hys
      exact ⟨[y] :: blocks, rfl, .cons (.stays hx hy) hblocks⟩

theorem exists_forall₂_between {α β γ : Type} {R : α → β → Prop} {S : β → γ → Prop}
    {as : List α} {cs : List γ} (h : List.Forall₂ (fun a c => ∃ b, R a b ∧ S b c) as cs) :
    ∃ bs, List.Forall₂ R as bs ∧ List.Forall₂ S bs cs := by
  induction h with
  | nil => exact ⟨[], .nil, .nil⟩
  | cons hac _ ih =>
    obtain ⟨b, hab, hbc⟩ := hac
    obtain ⟨bs, hR, hS⟩ := ih
    exact ⟨b :: bs, .cons hab hR, .cons hbc hS⟩

/-! ### Labels and jumps stay -/

theorem skeleton_congr {xs ys : List Instr}
    (h : List.Forall₂ (fun x y => skeleton [y] = skeleton [x]) xs ys) :
    skeleton ys = skeleton xs := by
  induction h with
  | nil => rfl
  | @cons x y xs ys hxy _ ih =>
    rw [← singleton_append, skeleton_append, hxy, ih, ← skeleton_append]
    rfl

theorem skeleton_becomes {φ : Reg → Reg} {code code' : List Instr}
    (h : List.Forall₂ (Becomes φ) code code') : skeleton code' = skeleton code := by
  refine skeleton_congr (h.imp fun x y hxy => ?_)
  cases hxy with
  | renamed => exact isControl_mapRegs φ x
  | copy => rfl

theorem skeleton_homed (home : Nat → Reg) (code : List Instr) :
    skeleton (code.map (homedInstr home)) = skeleton code := by
  refine skeleton_congr ?_
  rw [forall₂_map_right_iff, forall₂_same]
  intro x _
  cases x <;> rfl

theorem isOwn_homedInstr (home : Nat → Reg) (x : Instr) : isOwn (homedInstr home x) = isOwn x := by
  cases x <;> rfl

theorem isOwn_of_fine {P : Reg → Prop} {slot : Nat → Prop} {sym : Name → Prop} {x : Instr}
    (hx : x.Fine P slot sym) : isOwn x = true := by
  cases x with
  | ret | popRbp => exact hx.elim
  | _ => rfl

/-- The registers that a function leaves: the pointers, the callee-saved ones and its result. -/
def Left (returns : Bool) (r : Reg) : Prop :=
  r = .rsp ∨ r = .rbp ∨ (∃ q ∈ MachineReg.calleeSaved, r = .machine q) ∨ returns = true ∧ r = .rax

theorem Left.isMachine {returns : Bool} {r : Reg} (h : Left returns r) : IsMachine r := by
  rcases h with rfl | rfl | ⟨q, _, rfl⟩ | ⟨_, rfl⟩
  · exact ⟨_, rfl⟩
  · exact ⟨_, rfl⟩
  · exact ⟨_, rfl⟩
  · exact ⟨_, rfl⟩

namespace Closing

variable {C : Closing} {blocks : List (List Instr)} {out : List Instr} {calls : Calls}
  {globals : Std.TreeMap Name Int64} {base : Int64} {s t : State}

/-- Between the code before the last round and finished code there is code over final registers
in which slots are seen as registers. -/
theorem exists_source (h : List.Forall₂ C.f.Makes C.code blocks) :
    ∃ code, List.Forall₂ (Becomes C.f.final) (C.code.map C.view) code ∧
      List.Forall₂ (Lodges C.f.home C.f.kept.length (· ∉ labels C.first)) code blocks := by
  apply exists_forall₂_between
  rw [forall₂_map_left_iff]
  refine ((forall₂_and_left _ _).mpr ⟨fun x hx => hx, h⟩).imp ?_
  rintro x block ⟨hx, hmakes⟩
  cases hmakes with
  | stays hstays hy =>
    obtain ⟨hfine, hbecomes⟩ := instr_finished hx hstays hy
    exact ⟨_, hbecomes, .stays hfine⟩
  | dropped hdropped => exact ⟨_, becomes_of_dropped hx hdropped "", .dropped ""⟩

theorem tracks_left {r : Reg} (hr : Left C.returns r) : C.Tracks C.code.length r := by
  rcases hr with rfl | rfl | ⟨q, hq, rfl⟩ | ⟨hreturns, rfl⟩
  · exact .rsp
  · exact .rbp
  · obtain ⟨k, hk⟩ := mem_iff_getElem?.mp hq
    refine .restored hk ?_
    have hlt : k < 5 := (List.getElem?_eq_some_iff.mp hk).1
    rw [length_enclosed]
    omega
  · exact .result hreturns rfl

theorem final_left {r : Reg} (hr : Left C.returns r) : C.f.final r = r := by
  obtain ⟨q, rfl⟩ := hr.isMachine
  exact C.final_machine q

/-- Finished code runs as the code before the last round does, with slots seen as registers. -/
theorem runsAs_finished (C : Closing) (hout : C.f.code C.code = .ok out)
    (htargets : ∀ l ∈ targets C.first, l ∈ labels C.first)
    (hcalls : calls.Regular (SlotWord base C.f.kept.length)) (hs : s.ip = 0) (ht : t.ip = 0)
    (hlodged : (C.homes.frame base).Holds IsMachine s t)
    (hfinal : ∀ r, C.Tracks 0 r → s.get (C.f.final r) = s.get r) :
    RunsAs calls (SameEnd (SlotWord base C.f.kept.length) (Left C.returns))
      (imageOf globals (C.code.map C.view))
      (Apart (SlotWord base C.f.kept.length) (imageOf globals (C.code.map C.view))) s
      (imageOf globals out) (fun _ _ => True) t := by
  obtain ⟨blocks, rfl, hmakes⟩ := Finish.exists_makes hout
  -- In two steps: registers are renamed, and then slots are put into memory.
  obtain ⟨code, hbecomes, hlodges⟩ := exists_source hmakes
  have hskeleton : skeleton code = skeleton C.first := by
    refine (skeleton_becomes hbecomes).trans ?_
    rw [skeleton_homed, skeleton_enclosed, C.stage.skeleton]
  have hlabels : labels code = labels C.first := labels_eq_of_skeleton hskeleton
  have htargets' : ∀ l ∈ targets code, l ∈ labels code := by
    rw [targets_eq_of_skeleton hskeleton, hlabels]
    exact htargets
  have hlodge := runsAs_lodged hlodges C.homes (fun n hn => hlabels ▸ hn) hcalls globals hs ht
    hlodged
  have sim : Simulation calls (imageOf globals (C.code.map C.view)) (imageOf globals code)
      (Apart (SlotWord base C.f.kept.length) (imageOf globals (C.code.map C.view)))
      (Apart (SlotWord base C.f.kept.length) (imageOf globals code))
      (SameEnd (SlotWord base C.f.kept.length) (Left C.returns))
      (Locked fun i => Agree C.f.final (C.Tracks i) (SameWorld (SlotWord base C.f.kept.length)))
      fun _ => 0 := by
    refine (C.recolors globals).simulation hcalls rfl rfl (labelTable_becomes hbecomes) rfl hbecomes
      ?_ ?_ ?_
    · intro y hy
      obtain ⟨x, hx, rfl⟩ := mem_map.mp hy
      rw [isOwn_homedInstr]
      exact isOwn_of_fine (C.stage.enclosed_fine hx)
    · intro c l hjump
      show ((labelTable (C.code.map C.view))[l]?).isSome = true
      rw [← labelTable_becomes hbecomes, labelTable_getElem?, isSome_position?]
      apply htargets'
      rw [← targets_eq_of_skeleton (skeleton_becomes hbecomes).symm]
      exact mem_targets.mpr ⟨c, hjump⟩
    · intro r hr
      rw [length_map]
      exact ⟨tracks_left hr, final_left hr⟩
  have hrun : RunsAs calls (SameEnd (SlotWord base C.f.kept.length) (Left C.returns)) _ _ s _ _ s :=
    .of_simulation sim ⟨0, hs, hs, hfinal, .refl s, rfl, rfl⟩
  exact hrun.trans (hlodge.mono fun h => SameEnd.mono h fun _ => Left.isMachine) SameEnd.trans

end Closing

end X64Backend.Alloc
