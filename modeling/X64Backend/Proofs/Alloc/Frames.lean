import X64Backend.Proofs.Alloc.Blockwise
import X64Backend.Proofs.Alloc.Forms

/-! # Registers in the words of a frame

Abstract registers may live in words below a frame pointer. A state of code that keeps them
there is set beside a state in which they are registers. The words hold what the registers
hold, the other registers that code relies on are the same in both, and memory differs at the
words of the frame only.
-/

namespace X64Backend.Machine

open Asm

/-- Calls from two states end in the same way: alike for the machine, or with traps of one
kind. -/
inductive SameReply (Z : Int64 → Prop) : Outcome → Outcome → Prop
  | ok {s t : State} (hworld : SameWorld Z s t) (hleft : s.left = t.left)
      (hright : s.right = t.right) (hregs : ∀ q, s.get (.machine q) = t.get (.machine q)) :
      SameReply Z (.ok s) (.ok t)
  | error {e e' : Trap} {s t : State} (hkind : e.kind = e'.kind) (hworld : SameWorld Z s t) :
      SameReply Z (.error (e, s)) (.error (e', t))

/-- Calls depend on the machine and not on a part of memory. They leave that part alone, the
frame pointer, and the registers that are not the machine's. -/
structure Calls.Outside (calls : Calls) (Z : Int64 → Prop) : Prop where
  same : ∀ {c s t o}, SameWorld Z s t → s.left = t.left → s.right = t.right →
    (∀ q, s.get (.machine q) = t.get (.machine q)) → calls c t o →
    ∃ o', calls c s o' ∧ SameReply Z o' o
  ip : ∀ {c s s'}, calls c s (.ok s') → s'.ip = s.ip
  rbp : ∀ {c s s'}, calls c s (.ok s') → s'.get .rbp = s.get .rbp
  regs : ∀ {c s s'}, calls c s (.ok s') → ∀ r, (∀ q, r ≠ .machine q) → s'.get r = s.get r
  memory : ∀ {c s s'}, calls c s (.ok s') → ∀ a, Z a → s'.memory.read a = s.memory.read a

end X64Backend.Machine

namespace X64Backend.Alloc

open Asm Machine

/-- Slots belong to abstract registers, different ones to different registers. -/
structure Assigned (slots : Slots) : Prop where
  abstract {n : Name} {k : Nat} (h : slots[n]? = some k) : Reg.ofName n = .abstract n
  inj {n m : Name} {j k : Nat} (hn : slots[n]? = some j) (hm : slots[m]? = some k)
    (h : Mem.slot j = Mem.slot k) : n = m

/-- Slots below an address. -/
structure Frame where
  slots : Slots
  base : Int64
  assigned : Assigned slots

namespace Frame

/-- The words of the slots. -/
def Word (F : Frame) (a : Int64) : Prop :=
  ∃ (n : Name) (k : Nat), F.slots[n]? = some k ∧ a = slotAddress F.base k

/-- A state in which registers are in their slots, beside one in which they are registers. Of
the registers without a slot those of `T` are the same. -/
structure Holds (F : Frame) (T : Reg → Prop) (s t : State) : Prop where
  slot {n : Name} {k : Nat} (h : F.slots[n]? = some k) :
    t.load (slotAddress F.base k) = .ok (s.get (.abstract n))
  reg {r : Reg} (hr : T r) (h : F.slots[r.name]? = none) : t.get r = s.get r
  world : SameWorld F.Word s t
  left : s.left = t.left
  right : s.right = t.right
  base : t.get .rbp = F.base

variable {F : Frame} {T T' U : Reg → Prop} {img img' : Image} {s t : State} {x : Instr}
  {block : List Instr} {n m : Name} {j k : Nat}

theorem slotAddress_ne (hn : F.slots[n]? = some j) (hm : F.slots[m]? = some k) (hne : n ≠ m) :
    slotAddress F.base j ≠ slotAddress F.base k := fun heq =>
  hne (F.assigned.inj hn hm (slot_eq_of_slotAddress heq))

theorem address_slot (h : t.get .rbp = F.base) (k : Nat) :
    img.address t (.slot k) = .ok (slotAddress F.base k) := by
  have hrbp : baseWord t (some .rbp) = F.base := h
  rw [address_eq]
  show Except.ok (baseWord t (some .rbp) + 0 + -8 * Int64.ofInt k) = _
  rw [hrbp, Int64.add_zero]
  rfl

/-- A frame keeps registers in its words. -/
@[reducible] def keeping (F : Frame) : Keeping where
  slots := F.slots
  loc := inFrame
  Z := F.Word
  Hidden _ := False
  Own s t := t.get .rbp = F.base ∧ ∀ n k, F.slots[n]? = some k →
    t.load (slotAddress F.base k) = .ok (s.get (.abstract n))
  abstract := F.assigned.abstract
  loc_ne := fun h => nomatch h
  hidden := False.elim
  apart := fun _ _ h => h
  value {s t n k} img h hn := by
    grind [load_eq_ok, value_mem_eq_ok, address_slot]
  assign {s t n k} img h hn v := by
    obtain ⟨hcheck, _⟩ := load_eq_ok.mp (h.2 n k hn)
    refine ⟨{ t with memory := t.memory.write (slotAddress F.base k) v },
      assign_mem_eq_ok.mpr ⟨_, address_slot h.1 k, hcheck, rfl⟩, ⟨h.1, fun m j hm => ?_⟩,
      ⟨fun a ha => ?_, rfl, rfl⟩, rfl, rfl, fun _ _ => rfl⟩
    · obtain ⟨hcheck, hread⟩ := load_eq_ok.mp (h.2 m j hm)
      refine load_eq_ok.mpr ⟨hcheck, ?_⟩
      by_cases heq : m = n
      · subst heq
        obtain rfl := Option.some.inj (hn.symm.trans hm)
        rw [Memory.read_write, if_pos rfl, State.get_set_self]
      · grind [Reg.abstract.inj, Memory.read_write, slotAddress_ne, State.get_set_of_ne]
    · have hne : slotAddress F.base k ≠ a := fun heq => ha ⟨n, k, hn, heq.symm⟩
      rw [Memory.read_write, if_neg hne]
  congr {s s' t t'} h hs ht hm := by
    refine ⟨(ht _ (.inl rfl)).trans h.1, fun n k hn => ?_⟩
    obtain ⟨hcheck, hread⟩ := load_eq_ok.mp (h.2 n k hn)
    exact load_eq_ok.mpr ⟨hcheck, by rw [hm _ ⟨n, k, hn, rfl⟩, hs n k hn, hread]⟩

theorem holds_iff : F.keeping.Holds T s t ↔ F.Holds T s t :=
  ⟨fun h => ⟨fun hn => h.own.2 _ _ hn, h.reg, h.world, h.left, h.right, h.own.1⟩,
    fun h => ⟨⟨h.base, fun _ _ hn => h.slot hn⟩, h.reg, h.world, h.left, h.right⟩⟩

theorem free_machine (F : Frame) (p : MachineReg) : F.slots[(Reg.machine p).name]? = none :=
  F.keeping.free_machine p

theorem Holds.mono (h : F.Holds T s t) (hT : ∀ r, T' r → T r) : F.Holds T' s t :=
  ⟨h.slot, fun hr => h.reg (hT _ hr), h.world, h.left, h.right, h.base⟩

theorem Holds.advance (h : F.Holds T s t) : F.Holds T s.advance t.advance :=
  holds_iff.mp (holds_iff.mpr h).advance

theorem Holds.moved (h : F.Holds T s t) (i j : Int) :
    F.Holds T { s with ip := i } { t with ip := j } :=
  holds_iff.mp ((holds_iff.mpr h).moved i j _ _)

/-- Code that stands for an instruction does in the frame what the instruction does on
registers. -/
theorem related_block {shared : Reg → Prop} (h : Block inFrame F.slots U x block)
    (hx : falls x = true) (hU : F.keeping.Spare U) (hag : F.Holds T s t)
    (hread : ∀ r, U r → r ∉ Dataflow.uses x) (hs : F.keeping.Suits U T T' img img' s.advance x) :
    Outcome.Related (F.Holds T') (SameEnd F.Word shared) (img.exec s.advance x)
      (img'.execAll block t) := by
  obtain ⟨hrelated, _⟩ := Keeping.run_block h hx hU (holds_iff.mpr hag) hread hs
  exact hrelated.refine (fun _ _ h => holds_iff.mp h) fun h => h

/-! ## Code -/

variable {calls : Calls} {code : List Instr} {blocks : List (List Instr)}

/-- Runs on registers and on a frame end alike: with the frame in step, or with traps of one
kind and the same memory outside the frame. -/
def Ends (F : Frame) (T : Reg → Prop) : Ending → Ending → Prop
  | .finished s, .finished t => F.Holds T s t
  | .failed e s, .failed e' t => e.kind = e'.kind ∧ SameWorld F.Word s t
  | _, _ => False

/-- The states stand before an instruction and its block, with the frame in step. -/
def Meets (F : Frame) (T : Reg → Prop) (blocks : List (List Instr)) (s t : State) : Prop :=
  ∃ i ≤ blocks.length, s.ip = (i : Nat) ∧ t.ip = (offset blocks i : Nat) ∧ F.Holds T s t

theorem calling (hcalls : calls.Outside F.Word) (hT : ∀ q, T (.machine q)) :
    F.keeping.Calling T calls (F.Ends T) := by
  intro s t c o' hag ho'
  have hregs : ∀ q, s.get (.machine q) = t.get (.machine q) := fun q =>
    (hag.reg (hT q) (F.free_machine q)).symm
  obtain ⟨o, ho, hreply⟩ := hcalls.same hag.world hag.left hag.right hregs ho'
  refine ⟨o, ho, ?_⟩
  cases hreply with
  | error hkind hworld => exact .error ⟨hkind, hworld⟩
  | @ok s' t' hworld hleft hright hregs' =>
    refine .ok ⟨⟨⟨?_, fun n k hn => ?_⟩, fun {r} hr hfree => ?_, hworld, hleft, hright⟩,
      hcalls.ip ho, hcalls.ip ho'⟩
    · rw [hcalls.rbp ho', hag.own.1]
    · obtain ⟨hcheck, hread⟩ := load_eq_ok.mp (hag.own.2 n k hn)
      refine load_eq_ok.mpr ⟨hcheck, ?_⟩
      rw [hcalls.memory ho' _ ⟨n, k, hn, rfl⟩, hread,
        hcalls.regs ho (.abstract n) fun _ => nofun]
    · have hother : (∀ q, r ≠ .machine q) → t'.get r = s'.get r := fun hne => by
        rw [hcalls.regs ho r hne, hcalls.regs ho' r hne, hag.reg hr hfree]
      cases r with
      | machine q => exact (hregs' q).symm
      | rip | abstract n => exact hother fun _ => nofun

/-- The blocks go along with the code. -/
theorem simulation (h : F.keeping.Blocks T code blocks) (hne : [] ∉ blocks)
    (hcalls : calls.Outside F.Word) (globals : Std.TreeMap Name Int64) :
    Simulation calls (imageOf globals code) (imageOf globals blocks.flatten)
      (Apart F.Word (imageOf globals code)) (fun _ _ => True) (F.Ends T) (F.Meets T blocks)
      fun _ => 0 := by
  have sim : Simulation calls (imageOf globals code) (imageOf globals blocks.flatten)
      (Apart F.Word (imageOf globals code))
      (Apart (fun _ => False) (imageOf globals blocks.flatten)) (F.Ends T)
      (F.keeping.Meets T 0 blocks) fun _ => 0 :=
    h.simulation_alone globals (calling hcalls h.machine) (fun hkind hworld => ⟨hkind, hworld⟩)
      (fun hag => holds_iff.mp hag) fun hnil => absurd hnil hne
  refine sim.congr (fun _ _ _ => trivial) fun s t => ?_
  simp only [Keeping.Meets, Nat.zero_add, holds_iff, Meets]

end Frame

end X64Backend.Alloc
