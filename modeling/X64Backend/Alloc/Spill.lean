import Std.Data.TreeMap
import X64Backend.Asm.Instr

/-! # Spilling

Code in which some registers live in slots below the frame pointer. An instruction
reads and writes a slot in place where the machine allows one word of memory, and
through a register issued for that one instruction where it does not.
-/

namespace X64Backend.Alloc

open Asm

/-- The numbers of slots by register name. -/
abbrev Slots := Std.TreeMap Name Nat

/-- Code made with issued registers. -/
abbrev Spilling := StateT Supply (Except Defect)

namespace Spilling

/-- A register that was not issued before. -/
def fresh : Spilling Reg := modifyGet Supply.next

/-- The slot of a register that lives in memory. -/
def slot? (slots : Slots) (r : Reg) : Option Mem := slots[r.name]?.map fun n => .slot n

/-- A register to read instead, and the code to load it. -/
def readReg (slots : Slots) (r : Reg) : Spilling (List Instr × Reg) :=
  match slot? slots r with
  | none => return ([], r)
  | some m => do
    let t ← fresh
    return ([.mov (.reg t) (.mem m)], t)

/-- A base register to read instead. The instruction pointer stays. -/
def readBase (slots : Slots) : Option Reg → Spilling (List Instr × Option Reg)
  | none => return ([], none)
  | some .rip => return ([], some .rip)
  | some r => do
    let (load, r) ← readReg slots r
    return (load, some r)

def readIndex (slots : Slots) :
    Option (Reg × Int64) → Spilling (List Instr × Option (Reg × Int64))
  | none => return ([], none)
  | some (r, scale) => do
    let (load, r) ← readReg slots r
    return (load, some (r, scale))

/-- A word of memory addressed without spilled registers, and the code to load them. -/
def address (slots : Slots) (m : Mem) : Spilling (List Instr × Mem) := do
  let (loadBase, base) ← readBase slots m.base
  let (loadIndex, index) ← readIndex slots m.index
  return (loadBase ++ loadIndex, { m with base, index })

/-- An operand in place: a spilled register is its slot. -/
def inPlace (slots : Slots) : Operand → Spilling (List Instr × Operand)
  | .reg r => return ([], (slot? slots r).elim (.reg r) .mem)
  | .mem m => do
    let (load, m) ← address slots m
    return (load, .mem m)
  | x => return ([], x)

/-- An operand beside a word of memory: a spilled register is loaded. -/
def loaded (slots : Slots) : Operand → Spilling (List Instr × Operand)
  | .reg r => do
    let (load, r) ← readReg slots r
    return (load, .reg r)
  | .mem m => do
    let (load, m) ← address slots m
    return (load, .mem m)
  | x => return ([], x)

/-- A register to write instead, and the code to store it. -/
def written (slots : Slots) (r : Reg) : Spilling (Reg × List Instr) :=
  match slot? slots r with
  | none => return (r, [])
  | some m => do
    let t ← fresh
    return (t, [.mov (.mem m) (.reg t)])

/-- Works on a copy of a slot in a register. -/
def throughCopy (m : Mem) (x : Reg → Instr) : Spilling (List Instr) := do
  let t ← fresh
  return [.mov (.reg t) (.mem m), x t, .mov (.mem m) (.reg t)]

/-- A move into a register, which may live in memory. -/
def move (slots : Slots) (dst : Reg) (src : Operand) : Spilling (List Instr) := do
  let (load, src) ← inPlace slots src
  match slot? slots dst, src with
  | none, _ => return load ++ [.mov (.reg dst) src]
  | some m, .mem _ =>
    let t ← fresh
    return load ++ [.mov (.reg t) src, .mov (.mem m) (.reg t)]
  | some m, _ => return load ++ [.mov (.mem m) src]

/-- An operation on a register, which may live in memory. -/
def operate (slots : Slots) (op : Arith) (dst : Reg) (src : Operand) : Spilling (List Instr) := do
  let (load, src) ← inPlace slots src
  match slot? slots dst, src with
  | none, _ => return load ++ [.arith op (.reg dst) src]
  | some m, .mem _ => return load ++ (← throughCopy m fun t => .arith op (.reg t) src)
  | some m, _ => return load ++ [.arith op (.mem m) src]

/-- A comparison. Of two words in memory one is loaded. -/
def compare (slots : Slots) (l r : Operand) : Spilling (List Instr) :=
  match r with
  | .mem m => do
    let (loadLeft, l) ← loaded slots l
    let (loadRight, m) ← address slots m
    return loadLeft ++ loadRight ++ [.cmp l (.mem m)]
  | _ => do
    let (loadLeft, l) ← inPlace slots l
    let (loadRight, r) ← loaded slots r
    return loadLeft ++ loadRight ++ [.cmp l r]

def unary (slots : Slots) (x : Operand → Instr) (a : Operand) : Spilling (List Instr) := do
  let (load, a) ← inPlace slots a
  return load ++ [x a]

/-- The code for an instruction when some registers live in memory. -/
def instr (slots : Slots) : Instr → Spilling (List Instr)
  | .movAbs dst value => do
    let (d, store) ← written slots dst
    return .movAbs d value :: store
  | .mov (.mem m) src => do
    let (loadDst, m) ← address slots m
    let (loadSrc, src) ← loaded slots src
    return loadDst ++ loadSrc ++ [.mov (.mem m) src]
  | .mov (.reg dst) src => move slots dst src
  | .mov _ _ => throw .badDestination
  | .lea dst src => do
    let (load, src) ← address slots src
    let (d, store) ← written slots dst
    return load ++ .lea d src :: store
  | .cmp l r => compare slots l r
  | .set cond dst =>
    if slots.contains dst.name then throw (.spilledSet dst.name) else return [.set cond dst]
  | .call target => unary slots .call target
  | .arith op (.mem m) src => do
    let (loadDst, m) ← address slots m
    let (loadSrc, src) ← loaded slots src
    return loadDst ++ loadSrc ++ [.arith op (.mem m) src]
  | .arith op (.reg dst) src => operate slots op dst src
  | .arith _ _ _ => throw .badDestination
  | .imul dst src => do
    let (load, src) ← inPlace slots src
    match slot? slots dst with
    | none => return load ++ [.imul dst src]
    | some m => return load ++ (← throughCopy m fun t => .imul t src)
  | .imul3 dst src factor => do
    let (load, src) ← inPlace slots src
    let (d, store) ← written slots dst
    return load ++ .imul3 d src factor :: store
  | .idiv src => unary slots .idiv src
  | .neg dst => unary slots .neg dst
  | .shl dst count => unary slots (.shl · count) dst
  | .push src => unary slots .push src
  | x => return [x]

def code (slots : Slots) (xs : List Instr) : Spilling (List Instr) := do
  return (← xs.mapM (instr slots)).flatten

end Spilling

end X64Backend.Alloc
