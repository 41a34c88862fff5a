import X64Backend.Proofs.Alloc.Frames
import X64Backend.Proofs.Alloc.Homes

/-! # Slots in memory

Code that has slots below the frame pointer does what it does with the slots seen as registers,
as long as nothing else touches the words of the slots. Comments may be left out on the way.
-/

namespace X64Backend.Alloc

open Asm Machine List

/-- The words of the slots up to a number. -/
def SlotWord (base : Int64) (count : Nat) (a : Int64) : Prop :=
  ∃ k, 0 < k ∧ k ≤ count ∧ a = slotAddress base k

/-- Registers in which a slot can be seen: abstract ones, and a different one for each slot. -/
structure Homes (home : Nat → Reg) (count : Nat) : Prop where
  small : count < 2 ^ 60
  inj {j k : Nat} (hj : 0 < j ∧ j ≤ count) (hk : 0 < k ∧ k ≤ count) (h : home j = home k) : j = k
  proper {k : Nat} (hk : 0 < k ∧ k ≤ count) : (home k).Proper
  abstract {k : Nat} (hk : 0 < k ∧ k ≤ count) : home k = .abstract (home k).name

/-- The slots of the registers. -/
def lodgings (home : Nat → Reg) (count : Nat) : Slots :=
  .ofList ((List.range' 1 count).map fun k => ((home k).name, k)) compare

section

variable {home : Nat → Reg} {count : Nat} {base : Int64} {n : Name} {k : Nat}

theorem lodgings_eq_some (h : Homes home count) :
    (lodgings home count)[n]? = some k ↔ (0 < k ∧ k ≤ count) ∧ home k = .abstract n := by
  have hrange : ∀ {j : Nat}, j ∈ List.range' 1 count ↔ 0 < j ∧ j ≤ count := fun {j} => by
    rw [mem_range'_1]
    omega
  have hnodup : (((List.range' 1 count).map fun k => ((home k).name, k)).map Prod.fst).Nodup := by
    rw [map_map]
    refine (nodup_range' 1).map_on fun i hi j hj hij => ?_
    have hi := hrange.mp hi
    have hj := hrange.mp hj
    exact h.inj hi hj (((h.proper hi).name_inj (h.proper hj)).mp hij)
  rw [lodgings, getElem?_ofList_iff hnodup, mem_map]
  constructor
  · grind [Prod.mk.inj, h.abstract]
  · rintro ⟨hk, hhome⟩
    exact ⟨k, hrange.mpr hk, by rw [hhome]; rfl⟩

/-- The frame with the slots. -/
def Homes.frame (h : Homes home count) (base : Int64) : Frame where
  slots := lodgings home count
  base := base
  assigned := by
    refine ⟨fun hn => ?_, fun hn hm heq => ?_⟩
    · obtain ⟨hk, hhome⟩ := (lodgings_eq_some h).mp hn
      have hproper := h.proper hk
      rwa [hhome] at hproper
    · obtain ⟨hj, hhome⟩ := (lodgings_eq_some h).mp hn
      obtain ⟨hk, hhome'⟩ := (lodgings_eq_some h).mp hm
      have hsmall := h.small
      obtain rfl := slot_inj (by omega) (by omega) heq
      exact Reg.abstract.inj (hhome.symm.trans hhome')

theorem Homes.word_frame (h : Homes home count) (base : Int64) :
    (h.frame base).Word = SlotWord base count := by
  funext a
  refine propext ⟨?_, ?_⟩
  · rintro ⟨n, k, hn, rfl⟩
    obtain ⟨hk, _⟩ := (lodgings_eq_some h).mp hn
    exact ⟨k, hk.1, hk.2, rfl⟩
  · rintro ⟨k, hpos, hle, rfl⟩
    exact ⟨_, k, (lodgings_eq_some h).mpr ⟨⟨hpos, hle⟩, h.abstract ⟨hpos, hle⟩⟩, rfl⟩

end

/-! ## Code -/

/-- Registers that finished code names. -/
def InPalette (r : Reg) : Prop := ∃ q ∈ palette, r = .machine q

theorem not_inPalette_rbp : ¬ InPalette .rbp := by
  rintro ⟨q, hq, h⟩
  obtain rfl := Reg.machine.inj h
  revert hq
  decide

/-- What becomes of an instruction with slots seen as registers: an instruction with slots in
memory, or nothing if it is a comment. -/
inductive Lodges (home : Nat → Reg) (count : Nat) (sym : Name → Prop) : Instr → List Instr → Prop
  | stays {x : Instr} (hx : x.Fine InPalette (fun k => 0 < k ∧ k ≤ count) sym) :
      Lodges home count sym (homedInstr home x) [x]
  | dropped (text : Bytes) : Lodges home count sym (.comment text) []

section

variable {home : Nat → Reg} {count : Nat} {base : Int64} {sym : Name → Prop} {z : Instr}
  {block : List Instr}

theorem Homes.isSlot (h : Homes home count) {k : Nat} (hk : 0 < k ∧ k ≤ count) : IsSlot k :=
  ⟨hk.1, Nat.lt_of_le_of_lt hk.2 h.small⟩

/-- What becomes of an instruction stands for it in the frame. -/
theorem Lodges.stands (h : Lodges home count sym z block) (hhomes : Homes home count) :
    (hhomes.frame base).keeping.Stands IsMachine z block := by
  cases h with
  | dropped text => exact .dropped text
  | stays hx =>
    have hmachine := (hhomes.frame base).free_machine
    refine .block (U := fun _ => False) (fun _ h => h.elim)
      (block_homed hx not_inPalette_rbp hmachine ?_ fun k hk => ⟨hhomes.isSlot hk, ?_, rfl⟩)
    · rintro r ⟨q, _, rfl⟩
      exact hmachine q
    · exact (lodgings_eq_some hhomes).mpr ⟨hk, hhomes.abstract hk⟩

/-- With slots seen as registers, an instruction is over the palette and these registers. -/
theorem Lodges.fine (h : Lodges home count sym z block) (hhomes : Homes home count) :
    z.Fine (fun r => InPalette r ∨ ∃ k, (0 < k ∧ k ≤ count) ∧ r = home k) (fun _ => False) sym := by
  cases h with
  | dropped text => trivial
  | stays hx =>
    exact fine_homed hx not_inPalette_rbp (fun _ hr => .inl hr) fun k hk =>
      ⟨hhomes.isSlot hk, .inr ⟨k, hk, rfl⟩⟩

end

/-- Code with slots in memory runs as the code with slots seen as registers does. -/
theorem runsAs_lodged {home : Nat → Reg} {base : Int64} {count : Nat} {sym : Name → Prop}
    {code : List Instr} {blocks : List (List Instr)} {calls : Calls} {s t : State}
    (hblocks : List.Forall₂ (Lodges home count sym) code blocks) (hhomes : Homes home count)
    (hsym : ∀ n, sym n → n ∉ labels code) (hcalls : calls.Regular (SlotWord base count))
    (globals : Std.TreeMap Name Int64) (hs : s.ip = 0) (ht : t.ip = 0)
    (h : (hhomes.frame base).Holds IsMachine s t) :
    RunsAs calls (SameEnd (SlotWord base count) IsMachine) (imageOf globals code)
      (Apart (SlotWord base count) (imageOf globals code)) s
      (imageOf globals blocks.flatten) (fun _ _ => True) t := by
  rw [← hhomes.word_frame base] at hcalls ⊢
  have hT : ∀ q, IsMachine (.machine q) := fun q => ⟨q, rfl⟩
  have hfine : ∀ z ∈ code, z.Fine
      (fun r => InPalette r ∨ ∃ k, (0 < k ∧ k ≤ count) ∧ r = home k) (fun _ => False) sym := by
    intro z hz
    obtain ⟨block, _, hlodges⟩ := exists_mem_of_forall₂ hblocks.flip hz
    exact hlodges.fine hhomes
  have hkeeps : (hhomes.frame base).keeping.Blocks IsMachine code blocks := by
    refine .of_fine hfine ?_ hsym hT (hblocks.imp fun _ _ hz => hz.stands hhomes)
    rintro r (⟨q, hq, rfl⟩ | ⟨k, hk, rfl⟩)
    · exact ⟨⟨proper_machine q, fun _ => hT q⟩, fun heq => not_inPalette_rbp ⟨q, hq, heq.symm⟩⟩
    · have hslot := (lodgings_eq_some hhomes).mpr ⟨hk, hhomes.abstract hk⟩
      refine ⟨⟨hhomes.proper hk, fun hfree => ?_⟩, ?_⟩
      · cases hslot.symm.trans hfree
      · rw [hhomes.abstract hk]
        rintro ⟨⟩
  have sim := hkeeps.simulation_alone (μ := fun s => (code.length - s.ip).toNat) globals
    (Keeping.calling_of_regular hcalls hT) (fun hkind hworld => ⟨hkind, hworld⟩)
    (fun hag => hag.sameEnd hT) fun _ s hlt => by
      rw [State.ip_advance]
      omega
  exact .of_simulation (sim.congr (fun _ _ _ => trivial) fun _ _ => .rfl)
    ⟨0, Nat.zero_le _, hs, ht, Frame.holds_iff.mpr h⟩

end X64Backend.Alloc
