import X64Backend.Proofs.Alloc.Allocation
import X64Backend.Proofs.Alloc.Sparsity

/-! # Nothing is spilled without need

Code whose graph is sparse is finished after one round. No register needs a slot, so words that
look like slots are not known; but for these all instructions can be finished.
-/

namespace X64Backend.Alloc

open Asm Dataflow

theorem Round.Finds.spilled_eq_nil {round : Round} {live : Liveness} {code : List Instr}
    {returns : Bool} (h : round.Finds live code returns) {order : List Nat}
    (horder : ∀ n, Vars.machineCount ≤ n → n < live.vars.size → n ∈ order)
    (hdismantles : Dismantles (interference code live).edges order) : round.spilled = [] := by
  have hregular := (records_interference h.solves).toRegular
  have hfew : round.work.Few := by
    rw [h.work]
    exact Worklist.final_few hregular (h.size ▸ horder) hdismantles
  have hlt : ∀ n ∈ round.work.stack, n < (Coloring.start live.vars.size).colors.size := by
    intro n hn
    rw [Coloring.size_start (machineCount_le_size h.solves)]
    exact (h.mem_stack hn).2
  have hnone : round.coloring.spilled = [] := by
    rw [h.coloring, Coloring.ofWorklist, h.edges_size]
    refine Coloring.spilled_foldl_of_few h.sound.nodup hlt hfew fun n hn => ?_
    exact Coloring.getD_start_of_le (h.mem_stack hn).1
  rw [Round.spilled, hnone]
  rfl

end X64Backend.Alloc

/-! ## Code that needs no slots -/

namespace X64Backend.Asm

open List

/-- Where a word can only stay as it is, an instruction does too, or a word of it cannot. -/
theorem Operand.mapMem_cases {f : Mem → Except Defect Mem}
    (hf : ∀ m m', f m = .ok m' → m' = m) (a : Operand) :
    a.mapMem f = .ok a ∨ ∃ m ∈ a.words, ∃ d, f m = .error d ∧ a.mapMem f = .error d := by
  cases a with
  | mem m =>
    cases hm : f m with
    | ok m' =>
      obtain rfl := hf m m' hm
      left
      simp only [Operand.mapMem, hm]
      rfl
    | error d =>
      right
      refine ⟨m, mem_singleton.mpr rfl, d, hm, ?_⟩
      simp only [Operand.mapMem, hm]
      rfl
  | reg r | const c | absent => exact .inl rfl

theorem Instr.mapMem_cases {f : Mem → Except Defect Mem}
    (hf : ∀ m m', f m = .ok m' → m' = m) (x : Instr) :
    x.mapMem f = .ok x ∨ ∃ m ∈ x.places, ∃ d, f m = .error d ∧ x.mapMem f = .error d := by
  have hone : ∀ (a : Operand) (k : Operand → Instr),
      (a.mapMem f >>= fun a => pure (k a)) = .ok (k a) ∨
        ∃ m ∈ a.words, ∃ d, f m = .error d ∧ (a.mapMem f >>= fun a => pure (k a)) = .error d := by
    intro a k
    rcases Operand.mapMem_cases hf a with ha | ⟨m, hm, d, hd, ha⟩
    · exact .inl (by rw [ha]; rfl)
    · exact .inr ⟨m, hm, d, hd, by rw [ha]; rfl⟩
  have htwo : ∀ (a b : Operand) (k : Operand → Operand → Instr),
      (a.mapMem f >>= fun a => b.mapMem f >>= fun b => pure (k a b)) = .ok (k a b) ∨
        ∃ m ∈ a.words ++ b.words, ∃ d, f m = .error d ∧
          (a.mapMem f >>= fun a => b.mapMem f >>= fun b => pure (k a b)) = .error d := by
    intro a b k
    rcases Operand.mapMem_cases hf a with ha | ⟨m, hm, d, hd, ha⟩
    · rcases hone b (k a) with hb | ⟨m, hm, d, hd, hb⟩
      · exact .inl (by rw [ha]; exact hb)
      · exact .inr ⟨m, mem_append_right _ hm, d, hd, by rw [ha]; exact hb⟩
    · exact .inr ⟨m, mem_append_left _ hm, d, hd, by rw [ha]; rfl⟩
  cases x with
  | mov a b | cmp a b | arith op a b => exact htwo a b _
  | lea r m =>
    simp only [Instr.mapMem, Instr.places]
    cases hm : f m with
    | ok m' =>
      obtain rfl := hf m m' hm
      exact .inl rfl
    | error d => exact .inr ⟨m, mem_singleton.mpr rfl, d, hm, rfl⟩
  | call a | imul r a | imul3 r a k | idiv a | neg a | shl a k | push a => exact hone a _
  | movAbs r v | set c r | jump c l | ret | cqo | popRbp | label l | comment text | absent =>
    exact .inl rfl

theorem Instr.exists_of_mem_places_mapRegs {f : Reg → Reg} {x : Instr} {m : Mem}
    (h : m ∈ (x.mapRegs f).places) : ∃ m' ∈ x.places, m = m'.mapRegs f := by
  have hone : ∀ {a : Operand}, m ∈ (a.mapRegs f).words → ∃ m' ∈ a.words, m = m'.mapRegs f := by
    intro a ha
    cases a with
    | mem m' => exact ⟨m', mem_singleton.mpr rfl, mem_singleton.mp ha⟩
    | reg r | const c | absent => cases ha
  have htwo : ∀ {a b : Operand}, m ∈ (a.mapRegs f).words ++ (b.mapRegs f).words →
      ∃ m' ∈ a.words ++ b.words, m = m'.mapRegs f := by
    grind
  cases x with
  | mov a b | cmp a b | arith op a b => exact htwo h
  | lea r m' => exact ⟨m', mem_singleton.mpr rfl, mem_singleton.mp h⟩
  | call a | imul r a | imul3 r a k | idiv a | neg a | shl a k | push a => exact hone h
  | movAbs r v | set c r | jump c l | ret | cqo | popRbp | label l | comment text | absent =>
    cases h

theorem Instr.namedRegs_mapRegs (f : Reg → Reg) (x : Instr) :
    (x.mapRegs f).namedRegs = x.namedRegs.map f := by
  have hmem : ∀ m : Mem, (m.mapRegs f).namedRegs = m.namedRegs.map f := by
    rintro ⟨base, index, disp⟩
    cases base <;> cases index <;> rfl
  have hone : ∀ a : Operand, (a.mapRegs f).namedRegs = a.namedRegs.map f := by
    intro a
    cases a with
    | mem m => exact hmem m
    | reg r | const c | absent => rfl
  cases x <;> simp [Instr.mapRegs, Instr.namedRegs, hone, hmem]

end X64Backend.Asm

namespace X64Backend.Alloc

open Asm Dataflow

namespace Finish

variable {f : Finish} (hf : f.slots = ∅)

include hf

theorem kept_eq_nil : f.kept = [] := by
  rw [kept, hf]
  rfl

/-- Without slots a word that looks like one is not known. -/
theorem mem_cases (m : Mem) :
    f.mem m = .ok m ∨ slotNumber? m ≠ none ∧ f.mem m = .error (.unknownSlot m.text) := by
  unfold mem renumber?
  rw [kept_eq_nil hf]
  cases hm : slotNumber? m with
  | none => exact .inl rfl
  | some n => exact .inr ⟨Option.some_ne_none n, rfl⟩

theorem instr_cases {x : Instr}
    (hregs : ∀ r ∈ x.namedRegs, (f.reg r).isMachine = true ∨ f.reg r = .rip) :
    (∃ y, f.instr x = .ok y) ∨ ∃ m ∈ x.places, slotNumber? (m.mapRegs f.reg) ≠ none ∧
      f.instr x = .error (.unknownSlot (m.mapRegs f.reg).text) := by
  have hsame : ∀ m m', f.mem m = .ok m' → m' = m := by
    grind [mem_cases, Except.ok.inj]
  rcases Instr.mapMem_cases hsame (x.mapRegs f.reg) with h | ⟨m, hm, d, hd, h⟩
  · left
    have hcheck : (withoutSelfCopy (x.mapRegs f.reg)).checkRegisters = .ok () := by
      have hnamed : ∀ r ∈ (withoutSelfCopy (x.mapRegs f.reg)).namedRegs,
          r.isMachine = true ∨ r = .rip := by
        intro r hr
        -- A copy to itself is left out, and nothing else changes.
        have hr : r ∈ (x.mapRegs f.reg).namedRegs := by
          generalize x.mapRegs f.reg = y at hr
          unfold withoutSelfCopy at hr
          split at hr
          next =>
            split at hr
            · cases hr
            · exact hr
          next => exact hr
        rw [Instr.namedRegs_mapRegs] at hr
        obtain ⟨q, hq, rfl⟩ := List.mem_map.mp hr
        exact hregs q hq
      have hnone : (withoutSelfCopy (x.mapRegs f.reg)).namedRegs.find?
          (fun r => !r.isMachine && r != .rip) = none := by
        rw [List.find?_eq_none]
        intro r hr hbad
        simp only [Bool.and_eq_true, Bool.not_eq_true', bne_iff_ne] at hbad
        rcases hnamed r hr with h | h
        · rw [h] at hbad
          cases hbad.1
        · exact hbad.2 h
      rw [Instr.checkRegisters, hnone]
    refine ⟨withoutSelfCopy (x.mapRegs f.reg), ?_⟩
    unfold instr
    rw [h]
    simp only [bind, Except.bind, hcheck]
    rfl
  · right
    obtain ⟨m', hm', rfl⟩ := Instr.exists_of_mem_places_mapRegs hm
    rcases mem_cases hf (m'.mapRegs f.reg) with hok | ⟨hslot, herror⟩
    · rw [hok] at hd
      cases hd
    · rw [herror] at hd
      obtain rfl := Except.error.inj hd
      refine ⟨m', hm', hslot, ?_⟩
      unfold instr
      rw [h]
      rfl

/-- Code in whose place there are registers only is finished, unless a word in it looks like a
slot. -/
theorem code_cases {code : List Instr}
    (hregs : ∀ x ∈ code, ∀ r ∈ x.namedRegs, (f.reg r).isMachine = true ∨ f.reg r = .rip) :
    (∃ out, f.code code = .ok out) ∨ ∃ x ∈ code, ∃ m ∈ x.places,
      slotNumber? (m.mapRegs f.reg) ≠ none ∧
        f.code code = .error (.unknownSlot (m.mapRegs f.reg).text) := by
  cases hcode : f.code code with
  | ok out => exact .inl ⟨out, rfl⟩
  | error d =>
    right
    obtain ⟨x, hx, hfail⟩ := exists_of_mapM_eq_error hcode
    have hx := (List.mem_filter.mp hx).1
    rcases instr_cases hf (hregs x hx) with ⟨y, hy⟩ | ⟨m, hm, hslot, herror⟩
    · rw [hy] at hfail
      cases hfail
    · grind

end Finish

variable {code : List Instr} {returns : Bool} {round : Round} {live : Liveness} {order : List Nat}

/-- Where nothing is spilled, finishing puts machine registers in the place of all others. -/
theorem Round.Finds.isMachine_reg (h : round.Finds live code returns)
    (hproper : ∀ x ∈ code, ∀ r ∈ x.namedRegs, r.Proper) (hspilled : round.spilled = [])
    {f : Finish} (hcolors : round.Tells live f.colors) :
    ∀ x ∈ code, ∀ r ∈ x.namedRegs, (f.reg r).isMachine = true ∨ f.reg r = .rip := by
  intro x hx r hr
  unfold Finish.reg
  cases hc : f.colors[r.name]? with
  | some c => exact .inl rfl
  | none =>
    cases r with
    | machine q => exact .inl rfl
    | rip => exact .inr rfl
    | abstract n =>
      -- An abstract register that code names has a number, and so a colour.
      have hnamed := Shape.mem_uses_or_defs_of_named hr (fun h => nomatch h)
      obtain ⟨k, c, _, _, _, hc'⟩ := exists_colored h hspilled hcolors hx hnamed
        (workable_abstract (hproper x hx _ hr)) (fun _ h => nomatch h)
      rw [hc] at hc'
      cases hc'

/-- If the registers of code can be taken out of its interference graph one by one, each with
fewer neighbours left than the palette has colours, allocation needs one round and no slot,
whatever copies the code has. It ends so unless a word of the code, with machine registers put
in, looks like a slot, which it has not given out. -/
theorem allocate_thrifty (hlive : analyze code returns = .ok live)
    (hproper : ∀ x ∈ code, ∀ r ∈ x.namedRegs, r.Proper)
    (horder : order.Perm (List.range' Vars.machineCount (live.vars.size - Vars.machineCount)))
    (hdismantles : Dismantles (interference code live).edges order) (supply : Supply) :
    ∃ round, Round.ofCode returns code = .ok round ∧ round.spilled = [] ∧
      ((∃ out, allocate supply returns code =
          .ok { code := out, slots := 0, rounds := 1, supply }) ∨
        ∃ f : Reg → Reg, (∀ q, f (.machine q) = .machine q) ∧ ∃ x ∈ code, ∃ m ∈ x.places,
          slotNumber? (m.mapRegs f) ≠ none ∧
            allocate supply returns code = .error (.unknownSlot (m.mapRegs f).text)) := by
  obtain ⟨round, hround, hfinds⟩ : ∃ round, Round.ofCode returns code = .ok round ∧
      round.Finds live code returns :=
    ⟨_, bind_eq_ok.mpr ⟨live, hlive, rfl⟩, analyze_solves hlive, rfl, rfl, rfl⟩
  have hspilled := hfinds.spilled_eq_nil (fun n hle hlt => horder.mem_iff.mpr
    (List.mem_range'_1.mpr ⟨hle, by omega⟩)) hdismantles
  obtain ⟨colors, hok, hcolors, _⟩ := hfinds.colors_spec hspilled
  refine ⟨round, hround, hspilled, ?_⟩
  have hrounds : allocate supply returns code = lastRound 1 ∅ supply code round :=
    rounds_of_spilled_eq_nil hround hspilled
  let f : Finish := {
    colors := .ofList colors
    unused := Finish.unusedOf (colors.map Prod.snd)
    slots := ∅ }
  have hlast : lastRound 1 ∅ supply code round = (do
      return { code := ← f.code code, slots := 0, rounds := 1, supply }) := by
    unfold lastRound
    rw [hok]
    rfl
  rw [hrounds, hlast]
  rcases Finish.code_cases (f := f) rfl
    (hfinds.isMachine_reg hproper hspilled hcolors) with ⟨out, hout⟩ | ⟨x, hx, m, hm, h⟩
  · left
    rw [hout]
    exact ⟨out, rfl⟩
  · right
    refine ⟨f.reg, hfinds.reg_machine hcolors, x, hx, m, hm, h.1, ?_⟩
    rw [h.2]
    rfl

theorem summing_thrifty : ∃ live, analyze summing true = .ok live ∧
    Dismantles (interference summing live).edges [16, 17] ∧ ∀ supply, ∃ out,
      allocate supply true summing = .ok { code := out, slots := 0, rounds := 1, supply } := by
  obtain ⟨live, hlive⟩ := @exists_analyze summing true (by decide) (by decide)
  have hgraph : (match analyze summing true with
      | .ok live => decide (live.vars.size = 18 ∧
          Dismantles (interference summing live).edges [16, 17])
      | .error _ => false) = true := by decide +kernel
  rw [hlive] at hgraph
  obtain ⟨hsize, hdismantles⟩ := of_decide_eq_true hgraph
  refine ⟨live, hlive, hdismantles, fun supply => ?_⟩
  have hproper : ∀ x ∈ summing, ∀ r ∈ x.namedRegs, Reg.ofName r.name = r := by decide
  have horder : [16, 17].Perm
      (List.range' Vars.machineCount (live.vars.size - Vars.machineCount)) := by
    rw [hsize]
    decide
  obtain ⟨_, _, _, hend⟩ := allocate_thrifty hlive hproper horder hdismantles supply
  refine hend.resolve_right ?_
  -- No instruction addresses memory.
  rintro ⟨_, _, x, hx, m, hm, _⟩
  have hnone : ∀ x ∈ summing, x.places = [] := by decide
  rw [hnone x hx] at hm
  cases hm

end X64Backend.Alloc
