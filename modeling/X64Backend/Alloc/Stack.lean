import X64Backend.Alloc.Rounds

/-! # Everything on the stack

The plain way to allocate: each abstract register lives in a slot of its own. Three
registers are set aside: `r9` and `r10` load the parts of addresses, `r11` carries
values between two words of memory.
-/

namespace X64Backend.Alloc

open Asm

namespace Stack

/-- Numbers the slots of the abstract registers in the order in which code names them. -/
def slotsOf (code : List Instr) : Slots :=
  (code.flatMap Instr.namedRegs).foldl (fun slots r =>
    if r.isMachine || r = .rip || slots.contains r.name then slots
    else slots.insert r.name (slots.size + 1)) ∅

/-- Where a register lives. -/
def place (slots : Slots) (r : Reg) : Operand := (Spilling.slot? slots r).elim (.reg r) .mem

/-- A register to read, through another one if it lives in memory, and the code to load
it. -/
def readReg (slots : Slots) (r through : Reg) : List Instr × Reg :=
  match Spilling.slot? slots r with
  | none => ([], r)
  | some m => ([.mov (.reg through) (.mem m)], through)

/-- A word of memory addressed without abstract registers, and the code to load them
through two others. -/
def address (slots : Slots) (m : Mem) (base index : Reg) : List Instr × Mem :=
  let (loadBase, newBase) := match m.base with
    | none => ([], none)
    | some .rip => ([], some .rip)
    | some r => (readReg slots r base).map id some
  let (loadIndex, newIndex) := match m.index with
    | none => ([], none)
    | some (r, scale) => (readReg slots r index).map id fun r => some (r, scale)
  (loadBase ++ loadIndex, { m with base := newBase, index := newIndex })

/-- An operand in place: an abstract register is its slot. -/
def inPlace (slots : Slots) (a : Operand) (base index : Reg) : List Instr × Operand :=
  match a with
  | .reg r => ([], place slots r)
  | .mem m => (address slots m base index).map id .mem
  | a => ([], a)

/-- An operand beside a word of memory: an abstract register is loaded. Words of memory
stay as they are. -/
def loaded (slots : Slots) (a : Operand) (through : Reg) : List Instr × Operand :=
  match a with
  | .reg r => (readReg slots r through).map id .reg
  | a => ([], a)

/-- Computes into a register, or through another one into memory. -/
def into (dst : Operand) (through : Reg) (x : Reg → Instr) : List Instr :=
  match dst with
  | .reg r => [x r]
  | d => [x through, .mov d (.reg through)]

/-- Works on a register, or on a copy of a word of memory. -/
def throughCopy (dst : Operand) (x : Reg → Instr) : List Instr :=
  match dst with
  | .reg r => [x r]
  | d => [.mov (.reg .r11) d, x .r11, .mov d (.reg .r11)]

def move (slots : Slots) (dst : Reg) (src : Operand) : List Instr :=
  match place slots dst with
  | .reg r =>
    let (load, src) := inPlace slots src .r10 .r11
    load ++ [.mov (.reg r) src]
  | d =>
    let (load, src) := inPlace slots src .r9 .r10
    match src with
    | .mem _ => load ++ [.mov (.reg .r11) src, .mov d (.reg .r11)]
    | _ => load ++ [.mov d src]

/-- An operation on a register or its slot. -/
def operate (slots : Slots) (op : Arith) (dst : Reg) (src : Operand) : List Instr :=
  let (load, src) := inPlace slots src .r9 .r10
  match place slots dst, src with
  | .mem m, .mem _ => load ++ [.mov (.reg .r11) src, .arith op (.mem m) (.reg .r11)]
  | d, _ => load ++ [.arith op d src]

/-- A comparison. Of two words in memory one is loaded. -/
def compare (slots : Slots) (l r : Operand) : List Instr :=
  match r with
  | .mem m =>
    let (loadLeft, l) := loaded slots l .r9
    let (loadRight, m) := address slots m .r10 .r11
    loadLeft ++ loadRight ++ [.cmp l (.mem m)]
  | _ =>
    let (loadLeft, l) := inPlace slots l .r9 .r10
    let (loadRight, r) := loaded slots r .r11
    loadLeft ++ loadRight ++ [.cmp l r]

def unary (slots : Slots) (x : Operand → Instr) (a : Operand) (base index : Reg) : List Instr :=
  let (load, a) := inPlace slots a base index
  load ++ [x a]

/-- The code for an instruction when abstract registers live in slots. -/
def instr (slots : Slots) : Instr → Except Defect (List Instr)
  | .movAbs dst value => .ok (into (place slots dst) .r9 (.movAbs · value))
  | .mov (.mem m) src =>
    let (loadDst, m) := address slots m .r9 .r10
    let (loadSrc, src) := loaded slots src .r11
    .ok (loadDst ++ loadSrc ++ [.mov (.mem m) src])
  | .mov (.reg dst) src => .ok (move slots dst src)
  | .mov _ _ => .error .badDestination
  | .lea dst src =>
    let (load, src) := address slots src .r9 .r10
    .ok (load ++ into (place slots dst) .r11 (.lea · src))
  | .cmp l r => .ok (compare slots l r)
  | .set cond dst => .ok (into (place slots dst) .r9 (.set cond ·))
  | .call target => .ok (unary slots .call target .r9 .r10)
  | .arith op (.mem m) src =>
    let (loadDst, m) := address slots m .r9 .r10
    let (loadSrc, src) := loaded slots src .r11
    .ok (loadDst ++ loadSrc ++ [.arith op (.mem m) src])
  | .arith op (.reg dst) src => .ok (operate slots op dst src)
  | .arith _ _ _ => .error .badDestination
  | .imul dst src =>
    let (load, src) := inPlace slots src .r9 .r10
    .ok (load ++ throughCopy (place slots dst) (.imul · src))
  | .imul3 dst src factor =>
    let (load, src) := inPlace slots src .r9 .r10
    .ok (load ++ into (place slots dst) .r11 (.imul3 · src factor))
  | .idiv src => .ok (unary slots .idiv src .r10 .r11)
  | .neg dst => .ok (unary slots .neg dst .r9 .r10)
  | .shl dst count => .ok (unary slots (.shl · count) dst .r9 .r10)
  | .push src => .ok (unary slots .push src .r9 .r10)
  | x => .ok [x]

end Stack

/-- Slots for all abstract registers of a function's code. -/
def allocateOnStack (supply : Supply) (code : List Instr) : Except Defect Allocated := do
  let slots := Stack.slotsOf code
  let code := (← code.mapM (Stack.instr slots)).flatten
  return { code, slots := slots.size, rounds := 1, supply }

end X64Backend.Alloc
