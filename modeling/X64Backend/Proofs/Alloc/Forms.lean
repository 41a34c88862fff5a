import X64Backend.Alloc.Finish
import X64Backend.Proofs.Dataflow.Uses
import X64Backend.Proofs.Names

/-! # Forms of code under allocation

Between the rounds of allocation code names registers of some kind, keeps others in slots
below the frame pointer and uses the frame and stack pointers in few ways. A slot can be seen
as one more register: then spilling only renames registers, and memory is the program's own.
-/

namespace X64Backend.Asm

/-- A constant whose symbol, if it is one, is of some kind. -/
def Const.Fine (sym : Name → Prop) : Const → Prop
  | .imm _ => True
  | .sym n => sym n

/-- A word that is no slot: above the saved frame pointer, or at registers of some kind. -/
def Mem.Plain (P : Reg → Prop) (sym : Name → Prop) (m : Mem) : Prop :=
  m.disp.Fine sym ∧
    ((m.base = some .rbp ∧ m.index = none ∧ ∃ d, m.disp = .imm d ∧ 16 ≤ d) ∨ ∀ r ∈ m.regs, P r)

/-- An operand over registers and slots of some kind. -/
def Operand.Fine (P : Reg → Prop) (slot : Nat → Prop) (sym : Name → Prop) : Operand → Prop
  | .reg r => P r
  | .const c => c.Fine sym
  | .mem m => (∃ n, slot n ∧ m = .slot n) ∨ m.Plain P sym
  | .absent => True

/-- An instruction over registers and slots of some kind. The stack pointer is moved by
constants only, nothing is popped, and only calls may name any symbol. -/
def Instr.Fine (P : Reg → Prop) (slot : Nat → Prop) (sym : Name → Prop) : Instr → Prop
  | .movAbs d _ => P d
  | .mov d s | .cmp d s => d.Fine P slot sym ∧ s.Fine P slot sym
  | .lea d m => P d ∧ m.Plain P sym
  | .set _ d => P d
  | .call a => (∃ n, a = .const (.sym n)) ∨ a.Fine P slot sym
  | .arith op d s =>
    (d = .reg .rsp ∧ (op = .add ∨ op = .sub) ∧ ∃ v, s = .imm v) ∨
      d.Fine P slot sym ∧ s.Fine P slot sym
  | .imul d s | .imul3 d s _ => P d ∧ s.Fine P slot sym
  | .idiv a | .neg a | .shl a _ | .push a => a.Fine P slot sym
  | .ret | .popRbp => False
  | .jump _ _ | .cqo | .label _ | .comment _ | .absent => True

/-- The instruction with every operand replaced. Places for registers alone stay. -/
def Instr.mapOperands (f : Operand → Operand) : Instr → Instr
  | .mov d s => .mov (f d) (f s)
  | .cmp l r => .cmp (f l) (f r)
  | .call a => .call (f a)
  | .arith op d s => .arith op (f d) (f s)
  | .imul d s => .imul d (f s)
  | .imul3 d s k => .imul3 d (f s) k
  | .idiv a => .idiv (f a)
  | .neg a => .neg (f a)
  | .shl a k => .shl (f a) k
  | .push a => .push (f a)
  | x => x

end X64Backend.Asm

namespace X64Backend.Alloc

open Asm

/-- Numbers of slots whose words lie below the frame pointer. -/
def IsSlot (n : Nat) : Prop := 0 < n ∧ n < 2 ^ 60

theorem toInt_slot {n : Nat} (h : n < 2 ^ 60) : (-8 * Int64.ofInt n).toInt = -(8 * n) := by
  rw [Int64.toInt_mul, Int64.toInt_ofInt_of_le (by omega) (by omega)]
  show Int.bmod (-8 * _) _ = _
  rw [Int.bmod_eq_of_le] <;> omega

/-- The address of a slot below a frame pointer. -/
def slotAddress (base : Int64) (k : Nat) : Int64 := base + -8 * Int64.ofInt k

/-- Slots at one address are the same operand. -/
theorem slot_eq_of_slotAddress {base : Int64} {j k : Nat}
    (h : slotAddress base j = slotAddress base k) : Mem.slot j = Mem.slot k := by
  grind [Int64.ofInt, slotAddress, Int64.add_assoc, Mem.slot]

theorem slot_inj {j k : Nat} (hj : j < 2 ^ 60) (hk : k < 2 ^ 60) (h : Mem.slot j = Mem.slot k) :
    j = k := by
  have hdisp : -8 * Int64.ofInt j = -8 * Int64.ofInt k :=
    Const.imm.inj (congrArg Mem.disp h)
  have hint := congrArg Int64.toInt hdisp
  rw [toInt_slot hj, toInt_slot hk] at hint
  omega

/-- The number of a slot is read off its word. -/
theorem slotNumber?_slot {n : Nat} (h : IsSlot n) : slotNumber? (.slot n) = some (n : Int) := by
  have hint := toInt_slot h.2
  have hlt : -8 * Int64.ofInt n < 0 := by
    rw [Int64.lt_iff_toInt_lt, hint]
    show _ < (0 : Int)
    have := h.1
    omega
  have hmod : -8 * Int64.ofInt n % 8 = 0 := by
    apply Int64.toInt_inj.mp
    rw [Int64.toInt_mod, hint]
    show Int.tmod (-(8 * n)) 8 = 0
    rw [Int.neg_tmod, Int.mul_tmod_right]
    rfl
  have hdiv : (-(-8 * Int64.ofInt n) / 8).toInt = n := by
    have hn := h.2
    have hneg : (-(-8 * Int64.ofInt n)).toInt = 8 * n := by
      rw [Int64.toInt_neg, hint, Int.neg_neg, Int.bmod_eq_of_le] <;> omega
    have hquot : Int.tdiv (8 * n) 8 = n := Int.mul_tdiv_cancel_left _ (by decide)
    rw [Int64.toInt_div, hneg, show (8 : Int64).toInt = 8 from rfl, hquot, Int.bmod_eq_of_le]
      <;> omega
  simp only [slotNumber?, Mem.slot, Mem.offset, Mem.baseOf]
  rw [if_neg (by decide)]
  simp only [hlt, hmod, hdiv, decide_true, Bool.and_self, if_true]

/-- A word that is at no frame pointer, or above it, is no slot. -/
theorem slotNumber?_plain {P : Reg → Prop} {sym : Name → Prop} {m : Mem} (h : m.Plain P sym)
    (hP : ¬ P .rbp) : slotNumber? m = none := by
  rcases h.2 with ⟨hbase, hindex, d, hd, hle⟩ | hregs
  · have hlt : ¬ d < 0 := by
      rw [Int64.lt_iff_toInt_lt]
      have hle := Int64.le_iff_toInt_le.mp hle
      have h16 : (16 : Int64).toInt = 16 := rfl
      have h0 : (0 : Int64).toInt = 0 := rfl
      omega
    simp [slotNumber?, hbase, hindex, hd, hlt]
  · unfold slotNumber?
    split
    next hbase _ _ =>
      exact absurd (hregs .rbp (by simp [Mem.regs, hbase])) hP
    next => rfl

section

variable (home : Nat → Reg)

/-- An operand with a slot seen as a register. -/
def homed : Operand → Operand
  | .mem m => match slotNumber? m with
    | some n => .reg (home n.toNat)
    | none => .mem m
  | a => a

/-- An instruction with slots seen as registers. -/
def homedInstr (x : Instr) : Instr := x.mapOperands (homed home)

@[simp] theorem homed_reg (r : Reg) : homed home (.reg r) = .reg r := rfl
@[simp] theorem homed_const (c : Const) : homed home (.const c) = .const c := rfl
@[simp] theorem homed_absent : homed home .absent = .absent := rfl

theorem homed_slot {n : Nat} (h : IsSlot n) : homed home (.mem (.slot n)) = .reg (home n) := by
  simp only [homed, slotNumber?_slot h, Int.toNat_natCast]

theorem homed_plain {P : Reg → Prop} {sym : Name → Prop} {m : Mem} (h : m.Plain P sym)
    (hP : ¬ P .rbp) : homed home (.mem m) = .mem m := by
  simp only [homed, slotNumber?_plain h hP]

end

end X64Backend.Alloc
