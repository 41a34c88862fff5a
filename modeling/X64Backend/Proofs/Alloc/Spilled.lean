import X64Backend.Proofs.Alloc.Frames
import X64Backend.Proofs.Alloc.Tracking

/-! # Runs of spilled code

Spilling puts a block in the place of every instruction. The block does on registers in slots
what the instruction does on registers, and so a run of the spilled code goes along with a run
of the code, block by block.
-/

namespace X64Backend.Alloc

open Asm Machine Dataflow List

/-! ## The registers that blocks name -/

section

variable {slots : Slots} {U : Reg → Prop} {rs : List Reg} {fs : Fetches}
  (hslots : Assigned slots) (hU : ∀ r, U r → slots[r.name]? = none)
  (hfs : Fetching slots U rs fs)

include hslots in
theorem Assigned.free_of_name {r : Reg} (hr : Reg.ofName r.name ≠ .abstract r.name) :
    slots[r.name]? = none := by
  rw [Option.eq_none_iff_forall_ne_some]
  exact fun k hk => hr (hslots.abstract hk)

include hU hfs in
theorem Carried.free {r q : Reg} (h : Carried slots fs r q) : slots[q.name]? = none := by
  cases h with
  | kept h => exact h
  | fetched h hq => exact hU q (hfs.scratch _ hq)

include hslots in
theorem free_slot (k : Nat) : ∀ r ∈ (Mem.slot k).namedRegs, slots[r.name]? = none := by
  intro r hr
  obtain rfl : r = .rbp := by simpa [Mem.namedRegs, Mem.slot, Mem.offset, Mem.baseOf] using hr
  exact hslots.free_of_name (by decide)

include hslots hU hfs in
theorem CarriedMem.free {m n : Mem} (h : CarriedMem slots fs m n) :
    ∀ r ∈ n.namedRegs, slots[r.name]? = none := by
  obtain ⟨base, index, disp⟩ := m
  obtain ⟨base', index', disp'⟩ := n
  intro r hr
  rcases mem_append.mp hr with hr | hr
  · cases h.base with
    | none => cases hr
    | rip =>
      obtain rfl : r = .rip := by simpa using hr
      exact hslots.free_of_name (by decide)
    | reg _ _ hc =>
      obtain rfl : r = _ := by simpa using hr
      exact hc.free hU hfs
  · cases h.index with
    | none => cases hr
    | reg hc =>
      obtain rfl : r = _ := by simpa using hr
      exact hc.free hU hfs

include hslots hU hfs in
theorem ReadAs.free {a b : Operand} (h : ReadAs inFrame slots fs a b) :
    ∀ r ∈ b.namedRegs, slots[r.name]? = none := by
  cases h with
  | reg h => exact forall_mem_singleton.mpr (h.free hU hfs)
  | slot h => exact free_slot hslots _
  | mem h => exact h.free hslots hU hfs
  | const c | absent => exact fun _ hr => nomatch hr

include hslots hU in
theorem WrittenAs.free {d e : Reg} {store : List Instr} (h : WrittenAs inFrame slots U d e store) :
    slots[e.name]? = none ∧ ∀ y ∈ store, ∀ r ∈ y.namedRegs, slots[r.name]? = none := by
  cases h with
  | kept h => exact ⟨h, fun _ hy => nomatch hy⟩
  | stored h hq =>
    refine ⟨hU e hq, forall_mem_singleton.mpr (forall_mem_append.mpr ⟨?_, ?_⟩)⟩
    · exact free_slot hslots _
    · exact forall_mem_singleton.mpr (hU e hq)

include hslots hU hfs in
theorem Core.free {x y : Instr} {store : List Instr} (h : Core inFrame slots U fs x y store) :
    ∀ z ∈ y :: store, ∀ r ∈ z.namedRegs, slots[r.name]? = none := by
  have hread : ∀ {a b : Operand}, ReadAs inFrame slots fs a b →
      ∀ r ∈ b.namedRegs, slots[r.name]? = none := fun h => h.free hslots hU hfs
  have hpair : ∀ {a b c d : Operand}, ReadAs inFrame slots fs a b → ReadAs inFrame slots fs c d →
      ∀ r ∈ b.namedRegs ++ d.namedRegs, slots[r.name]? = none := fun ha hc =>
    forall_mem_append.mpr ⟨hread ha, hread hc⟩
  have hwriting : ∀ {d e : Reg} {rs : List Reg}, WrittenAs inFrame slots U d e store →
      (∀ r ∈ rs, slots[r.name]? = none) → (∀ r ∈ e :: rs, slots[r.name]? = none) ∧
        ∀ y ∈ store, ∀ r ∈ y.namedRegs, slots[r.name]? = none := fun h hrs =>
    ⟨forall_mem_cons.mpr ⟨(h.free hslots hU).1, hrs⟩, (h.free hslots hU).2⟩
  rw [forall_mem_cons]
  cases h with
  | movAbs h | set h => exact hwriting h fun _ hr => nomatch hr
  | movReg h ha | imul3 h ha => exact hwriting h (hread ha)
  | arithReg h ha | imul h ha => exact hwriting (h.writtenAs hfs) (hread ha)
  | lea h hm => exact hwriting h (hm.free hslots hU hfs)
  | mov hd ha | arith hd ha => exact ⟨hpair hd.readAs ha, fun _ hy => nomatch hy⟩
  | cmp ha hc => exact ⟨hpair ha hc, fun _ hy => nomatch hy⟩
  | call ha | idiv ha | push ha => exact ⟨hread ha, fun _ hy => nomatch hy⟩
  | neg hd | shl hd => exact ⟨hread hd.readAs, fun _ hy => nomatch hy⟩
  | bare hx =>
    refine ⟨fun r hr => ?_, fun _ hy => nomatch hy⟩
    cases x with
    | jump c l | ret | cqo | popRbp | label l | comment text | absent => cases hr
    | _ => cases hx

end

/-- The code names no register with a slot. -/
theorem Block.free {slots : Slots} {U : Reg → Prop} {x : Instr} {block : List Instr}
    (h : Block inFrame slots U x block) (hslots : Assigned slots)
    (hU : ∀ r, U r → slots[r.name]? = none) :
    ∀ y ∈ block, ∀ r ∈ y.namedRegs, slots[r.name]? = none := by
  have hfetches : ∀ {fs : Fetches} {rs : List Reg}, Fetching slots U rs fs →
      ∀ y ∈ fs.code inFrame, ∀ r ∈ y.namedRegs, slots[r.name]? = none := by
    intro fs rs hfs y hy
    obtain ⟨p, hp, rfl⟩ := mem_map.mp hy
    exact forall_mem_cons.mpr ⟨hU p.1 (hfs.scratch p hp), free_slot hslots _⟩
  cases h with
  | around hfs hcore =>
    exact forall_mem_append.mpr ⟨hfetches hfs, hcore.free hslots hU hfs⟩
  | relayed hfs hd hq ha =>
    rw [forall_mem_append, forall_mem_cons, forall_mem_singleton]
    refine ⟨hfetches hfs, ?_, ?_⟩
    · exact forall_mem_cons.mpr ⟨hU _ hq, ha.free hslots hU hfs⟩
    · refine forall_mem_append.mpr ⟨free_slot hslots _, ?_⟩
      exact forall_mem_singleton.mpr (hU _ hq)

/-! ## Blocks for code -/

namespace Spilling

/-- What spilling needs of code whose registers are to live in slots, with the registers from
`first` on still to be issued. -/
structure Fits (slots : Slots) (first : Nat) (code : List Instr) : Prop where
  assigned : Assigned slots
  named : Named code
  targets : ∀ x ∈ code, hasTarget x = true
  ret : .ret ∉ code
  rbp : ∀ x ∈ code, .rbp ∉ defs x
  set : ∀ c d, .set c d ∈ code → slots[d.name]? = none
  symbols : ∀ x ∈ code, ∀ n ∈ x.symbols, n ∉ labels code
  unused : ∀ j, first ≤ j → slots[(Reg.issued j).name]? = none ∧ ∀ x ∈ code, .issued j ∉ x.namedRegs

/-- The registers below an address. -/
def Fits.frame {slots : Slots} {first : Nat} {code : List Instr} (h : Fits slots first code)
    (base : Int64) : Frame := ⟨slots, base, h.assigned⟩

/-- Registers that are not still to be issued. -/
def Old (first : Nat) (r : Reg) : Prop := ∀ j, first ≤ j → r ≠ .issued j

end Spilling

/-- Spilled code is made of a block for every instruction. The blocks name no register that has
a slot, have no more words of memory in an instruction than the code has, and leave alone what
names no register with a slot. They go along with the code step by step, on registers in their
slots, and end and fail as the code does. -/
theorem spilled_blocks_simulate {slots : Slots} {supply : Supply} {code : List Instr}
    (h : Spilling.Fits slots supply.issued code) :
    ∃ blocks supply', (code.mapM (Spilling.instr slots)).run supply = .ok (blocks, supply') ∧
      List.Forall₂ (fun x block => (∀ y ∈ block, ∀ r ∈ y.namedRegs, slots[r.name]? = none) ∧
        (x.words.length ≤ 1 → ∀ y ∈ block, y.words.length ≤ 1) ∧
        ((∀ r ∈ x.namedRegs, slots[r.name]? = none) → block = [x])) code blocks ∧
      ∀ (base : Int64) (globals : Std.TreeMap Name Int64) (calls : Calls),
        calls.Outside (h.frame base).Word →
        Simulation calls (imageOf globals code) (imageOf globals blocks.flatten)
          (Apart (h.frame base).Word (imageOf globals code)) (fun _ _ => True)
          ((h.frame base).Ends (Spilling.Old supply.issued)) ((h.frame base).Meets (Spilling.Old supply.issued) blocks)
          (fun _ => 0) ∧
        ∀ s t, (h.frame base).Meets (Spilling.Old supply.issued) blocks s t →
          RunsAs calls ((h.frame base).Ends (Spilling.Old supply.issued)) (imageOf globals code)
            (Apart (h.frame base).Word (imageOf globals code)) s (imageOf globals blocks.flatten)
            (fun _ _ => True) t := by
  have hblock : ∀ x ∈ code, ∀ begun : Supply, supply.issued ≤ begun.issued →
      Spilling.Yields begun (Spilling.instr slots x) fun ended block =>
        StandsFor slots (Issued begun ended) x block := fun x hx begun _ =>
    Spilling.instr_standsFor (h.targets x hx) fun c d heq => h.set c d (heq ▸ hx)
  obtain ⟨blocks, supply', hrun, _, hblocks⟩ := Spilling.mapM_yields hblock
  have hunused : ∀ {begun ended : Supply} {r : Reg}, supply.issued ≤ begun.issued →
      Issued begun ended r → ¬ Spilling.Old supply.issued r ∧ slots[r.name]? = none := by
    rintro begun ended r hle ⟨j, hj, _, rfl⟩
    exact ⟨fun hold => hold j (Nat.le_trans hle hj) rfl, (h.unused j (Nat.le_trans hle hj)).1⟩
  refine ⟨blocks, supply', hrun, ?_, ?_⟩
  · refine hblocks.imp ?_
    rintro x block ⟨begun, ended, hle, _, hb⟩
    exact ⟨hb.block.free h.assigned fun r hr => (hunused hle hr).2, hb.words, hb.block.eq_of_none⟩
  · intro base globals calls hcalls
    have hframe : (h.frame base).keeping.Blocks (Spilling.Old supply.issued) code blocks := by
      refine ⟨fun q j _ => nofun, hblocks.imp ?_, fun x hx r hr => ?_, fun x hx r hr => ?_,
        h.symbols, h.ret⟩
      · rintro x block ⟨begun, ended, hle, _, hb⟩
        exact .block (fun r hr => hunused hle hr) hb.block
      · refine ⟨h.named.proper hx (.inl hr), fun _ j hj heq => ?_⟩
        rcases named_or_machine_of_mem (.inl hr) with hnamed | ⟨q, hq⟩
        · exact (h.unused j hj).2 x hx (heq ▸ hnamed)
        · exact nomatch hq.symm.trans heq
      · exact ⟨h.named.proper hx (.inr hr), fun heq => h.rbp x hx (heq ▸ hr)⟩
    have hne : [] ∉ blocks := fun hmem => by
      obtain ⟨x, _, _, _, _, _, hb⟩ := exists_mem_of_forall₂ hblocks hmem
      exact hb.block.ne_nil rfl
    have sim := Frame.simulation hframe hne hcalls globals
    exact ⟨sim, fun s t hst => .of_simulation sim hst⟩

/-- Code that works on a register with a slot, and uses it as an address. -/
def chasing : List Instr := [
  .mov (.reg (.abstract "p")) (.reg (.machine .rdi)),
  .label "next",
  .arith .add (.reg (.abstract "p")) (.mem (.offset (.abstract "p") 0)),
  .call (.const (.sym "show")),
  .cmp (.reg (.abstract "p")) (.imm 0),
  .jump .jne "next",
  .mov (.reg .rax) (.reg (.abstract "p"))]

/-- A slot for the register. -/
def chasingSlots : Slots := (∅ : Slots).insert "p" 1

/-- Calls that do nothing. -/
def idleCalls : Calls := fun _ s o => o = .ok s

/-- A state in which no register is set but the frame pointer. -/
def frameStart (base : Int64) : State :=
  { regs := Registers.zero.set .rbp base, memory := .empty, left := 0, right := 0, heap := 0,
    ip := 0, steps := 0, output := #[] }

theorem chasingSlots_eq_some {n : Name} {k : Nat} : chasingSlots[n]? = some k ↔ "p" = n ∧ 1 = k := by
  grind [chasingSlots]

theorem issued_ne_p (j : Nat) : (Reg.issued j).name ≠ "p" := by
  intro h
  have hlength := congrArg List.length h
  have hmark : Reg.issuedMark.length = 14 := rfl
  have hp : List.length ("p" : Name) = 1 := rfl
  rw [Reg.issued, Reg.name, length_append, hmark, hp] at hlength
  omega

theorem chasing_fits : Spilling.Fits chasingSlots 0 chasing where
  assigned := by
    refine ⟨fun h => ?_, fun hn hm _ => ?_⟩
    · obtain ⟨rfl, _⟩ := chasingSlots_eq_some.mp h
      decide
    · exact (chasingSlots_eq_some.mp hn).1.symm.trans (chasingSlots_eq_some.mp hm).1
  named := by decide
  targets := by decide
  ret := by decide
  rbp := by decide
  set := by
    intro c d h
    simp [chasing] at h
  symbols := by decide
  unused := by
    intro j _
    constructor
    · grind [issued_ne_p, chasingSlots_eq_some]
    · have hregs : ∀ x ∈ chasing, ∀ r ∈ x.namedRegs, r.isMachine = true ∨ r.name = "p" := by decide
      intro x hx hj
      exact (hregs x hx _ hj).elim nofun (issued_ne_p j)

theorem chasing_simulated : ∃ blocks supply',
    (chasing.mapM (Spilling.instr chasingSlots)).run ⟨0⟩ = .ok (blocks, supply') ∧
      RunsAs idleCalls ((chasing_fits.frame 8192).Ends (Spilling.Old 0)) (imageOf ∅ chasing)
        (Apart (chasing_fits.frame 8192).Word (imageOf ∅ chasing)) (frameStart 8192)
        (imageOf ∅ blocks.flatten) (fun _ _ => True) (frameStart 8192) := by
  have hcalls : idleCalls.Outside (chasing_fits.frame 8192).Word := by
    refine ⟨fun hworld hleft hright hregs ho => ?_, ?_, ?_, ?_, ?_⟩
    · cases ho
      exact ⟨_, rfl, .ok hworld hleft hright hregs⟩
    all_goals
      rintro c s _ ⟨⟩
      intros
      rfl
  have hfits : Spilling.Fits chasingSlots (⟨0⟩ : Supply).issued chasing := chasing_fits
  obtain ⟨blocks, supply', hrun, _, hsim⟩ := spilled_blocks_simulate hfits
  refine ⟨blocks, supply', hrun, (hsim 8192 ∅ idleCalls hcalls).2 _ _ ?_⟩
  refine ⟨0, Nat.zero_le _, rfl, rfl, fun {n k} hn => ?_, fun _ _ => rfl, .refl _, rfl, rfl, rfl⟩
  obtain ⟨rfl, rfl⟩ := chasingSlots_eq_some.mp hn
  have hcheck : State.checkAddress (slotAddress 8192 1) = .ok () := by decide
  exact load_eq_ok.mpr ⟨hcheck, rfl⟩

end X64Backend.Alloc
