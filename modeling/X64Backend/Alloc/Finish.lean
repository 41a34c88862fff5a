import X64Backend.Alloc.Spill
import X64Backend.Asm.Registers

/-! # Finished code

The last step of allocation puts machine registers in the place of abstract ones.
Callee-saved registers that no abstract register got need not be kept: the moves
that save and restore them go, with the slots they may have had, and the other slots
are numbered anew without gaps.
-/

namespace X64Backend.Alloc

open Asm

/-- Moves that keep the callee-saved registers in abstract registers around code. -/
def keepCalleeSaved (code : List Instr) : List Instr :=
  let save (r : MachineReg) : Instr := .copy (.saved (.machine r)) (.machine r)
  let restore (r : MachineReg) : Instr := .copy (.machine r) (.saved (.machine r))
  MachineReg.calleeSaved.map save ++ code ++ MachineReg.calleeSaved.map restore ++
    [.comment "Dummy end of program."]

/-- The number of the slot that a word is. Numbers that no slot has may come out too. -/
def slotNumber? (m : Mem) : Option Int :=
  match m.base, m.index, m.disp with
  | some .rbp, none, .imm d => if d < 0 && d % 8 = 0 then some (-d / 8).toInt else none
  | _, _, _ => none

/-- What is known when code is finished: the colours by name, the callee-saved registers
that are not used, and the slots of all spilled registers. -/
structure Finish where
  colors : Std.TreeMap Name MachineReg
  unused : List MachineReg
  slots : Slots

namespace Finish

/-- The callee-saved registers that are nobody's colour. -/
def unusedOf (colors : List MachineReg) : List MachineReg :=
  MachineReg.calleeSaved.filter fun r => !colors.contains r

/-- The slots that keep unused registers. -/
def dropped (f : Finish) : List Nat :=
  f.unused.filterMap fun r => f.slots[(Reg.saved (.machine r)).name]?

/-- The slots that stay. -/
def kept (f : Finish) : List Nat :=
  (f.slots.toList.map Prod.snd).filter fun id => !f.dropped.contains id

/-- Whether a register is unused or keeps an unused one. -/
def isUnused (f : Finish) (r : Reg) : Bool :=
  f.unused.any fun u => r = .machine u || r = .saved (.machine u)

/-- Whether an operand has to do only with keeping an unused register. -/
def isIdle (f : Finish) : Operand → Bool
  | .reg r => f.isUnused r
  | .mem m => match slotNumber? m with
    | some n => f.dropped.any fun id => (id : Int) = n
    | none => false
  | .const _ | .absent => false

/-- Whether an instruction saves or restores an unused register. -/
def isDropped (f : Finish) : Instr → Bool
  | .mov dst src => f.isIdle dst || f.isIdle src
  | _ => false

def reg (f : Finish) (r : Reg) : Reg :=
  match f.colors[r.name]? with
  | some c => .machine c
  | none => r

/-- The new number of a slot: how many of those that stay are not above it. -/
def renumber? (f : Finish) (n : Int) : Option Nat :=
  if f.kept.any fun id => (id : Int) = n then
    some (f.kept.countP fun id : Nat => (id : Int) ≤ n)
  else none

/-- A word of memory with its slot numbered anew. -/
def mem (f : Finish) (m : Mem) : Except Defect Mem :=
  match slotNumber? m with
  | none => .ok m
  | some n => match f.renumber? n with
    | some k => .ok (.slot k)
    | none => .error (.unknownSlot m.text)

/-- A copy of a register to itself is only a comment. -/
def withoutSelfCopy : Instr → Instr
  | .mov (.reg d) (.reg s) =>
    if d = s then .comment ("'mov " ++ d.name ++ ", " ++ s.name ++ "' is optimized away.")
    else .mov (.reg d) (.reg s)
  | x => x

def instr (f : Finish) (x : Instr) : Except Defect Instr := do
  let x := withoutSelfCopy (← (x.mapRegs f.reg).mapMem f.mem)
  x.checkRegisters
  return x

def code (f : Finish) (xs : List Instr) : Except Defect (List Instr) :=
  (xs.filter fun x => !f.isDropped x).mapM f.instr

end Finish

end X64Backend.Alloc
