import X64Backend.Asm.Labels
import X64Backend.Asm.Text
import X64Backend.Machine.Memory
import X64Backend.Text.Quoted

/-! # Machine states and traps

A loaded program has its code in an array and tables of its labels and globals. A
state holds what execution changes. A trap says why an instruction did not finish.
-/

namespace X64Backend.Machine

open Asm

/-- The lowest address that can be used. -/
def dataStart : Int64 := 0x1000

/-- The address above the highest word that can be used. The stack grows down from here. -/
def stackTop : Int64 := 0x78000000

/-- The lowest address that the heap leaves to the stack. -/
def heapLimit : Int64 := stackTop - 0x100000

/-- The return address that ends a run. -/
def exitAddress : Int64 := -8

/-- The length above which no string can be held. -/
def maxTextLength : Int := 0x1000000000000

/-- A program ready to run. -/
structure Image where
  code : Array Instr
  labels : LabelTable
  globals : Std.TreeMap Name Int64

/-- What execution changes. -/
structure State where
  regs : Registers
  memory : Memory
  /-- Operands of the last comparison. -/
  left : Int64
  right : Int64
  /-- Where the next block of memory is taken from. -/
  heap : Int64
  /-- The position of the next instruction. -/
  ip : Int
  steps : Nat
  output : Array UInt8

inductive Trap
  | unaligned (address : Int64)
  | outOfRange (address : Int64)
  | outOfCode (ip : Int)
  | badTarget (address : Int64)
  | outOfMemory (size : Int64)
  | divisionByZero
  | unknownLabel (name : Name)
  | unknownEntry (name : Name)
  | thrown (text : Bytes)
  | badNumber (text : Bytes)
  | stepLimit (steps : Nat)
  | cancelled
  | badSize (size : Int64)
  | badLength (length address : Int64)
  | emptyOperand
  | unassignable (operand : Operand)
  | meaninglessOp
  | emptyInstr
  | defect (defect : Defect)
  deriving DecidableEq

inductive TrapKind
  | unaligned
  | segfault
  | divisionByZero
  | unknownLabel
  | programPanic
  | stepLimit
  | other
  deriving DecidableEq

namespace Trap

def kind : Trap → TrapKind
  | .unaligned _ => .unaligned
  | .outOfRange _ | .outOfCode _ | .badTarget _ | .outOfMemory _ => .segfault
  | .divisionByZero => .divisionByZero
  | .unknownLabel _ | .unknownEntry _ => .unknownLabel
  | .thrown _ | .badNumber _ => .programPanic
  | .stepLimit _ => .stepLimit
  | .cancelled | .badSize _ | .badLength _ _ | .emptyOperand | .unassignable _ | .meaninglessOp
  | .emptyInstr | .defect _ => .other

def kindMessage : TrapKind → Bytes
  | .unaligned => "unaligned memory access"
  | .segfault => "segmentation fault"
  | .divisionByZero => "division by zero"
  | .unknownLabel => "unknown label"
  | .programPanic => "program panic"
  | .stepLimit => "step limit exceeded"
  | .other => []

/-- What a trap says before the wording of its kind. -/
def detail : Trap → Bytes
  | .unaligned address | .outOfRange address => Bytes.ofAddress address
  | .outOfCode ip => "instruction pointer out of code: " ++ Bytes.ofInt ip
  | .badTarget address => "call to " ++ Bytes.ofAddress address
  | .outOfMemory size => "out of memory: " ++ Bytes.ofWord size ++ " bytes"
  | .divisionByZero => []
  | .unknownLabel n => n
  | .unknownEntry n => "entry " ++ n
  | .thrown text => text
  | .badNumber text => "bad string: " ++ Quoted.write text
  | .stepLimit steps => "after " ++ Bytes.ofNat steps ++ " steps"
  | .cancelled => "context canceled"
  | .badSize size => "malloc: bad size: " ++ Bytes.ofWord size
  | .badLength length address =>
    "bad string length: " ++ Bytes.ofWord length ++ " at " ++ Bytes.ofAddress address
  | .emptyOperand => "unsupported arg: <nil>"
  | .unassignable (.const _) => "not assignable: asm.Const"
  | .unassignable _ => "not assignable: <nil>"
  | .meaninglessOp => "unsupported op"
  | .emptyInstr => "unsupported instruction: <nil>"
  | .defect d => d.message?.getD []

def message (t : Trap) : Bytes := Bytes.messageChain [t.detail, kindMessage t.kind]

end Trap

namespace State

def get (s : State) (r : Reg) : Int64 := s.regs.get r

def set (s : State) (r : Reg) (v : Int64) : State := { s with regs := s.regs.set r v }

/-- Checks that an address is a multiple of eight in the range that can be used. -/
def checkAddress (address : Int64) : Except Trap Unit :=
  if address % 8 ≠ 0 then .error (.unaligned address)
  else if address < dataStart || stackTop ≤ address then .error (.outOfRange address)
  else .ok ()

/-- The word at an address that can be used. -/
def load (s : State) (address : Int64) : Except Trap Int64 := do
  checkAddress address
  return s.memory.read address

/-- The state with the word at an address that can be used replaced. -/
def store (s : State) (address v : Int64) : Except Trap State := do
  checkAddress address
  return { s with memory := s.memory.write address v }

end State

/-- A step's outcome. The state at a trap is kept, for a later call goes on from it. -/
abbrev Outcome := Except (Trap × State) State

namespace Outcome

/-- An outcome that leaves the state at `s` on a trap. -/
def orElse (s : State) : Except Trap State → Outcome
  | .ok s' => .ok s'
  | .error t => .error (t, s)

/-- Goes on with a value, or stops in state `s`. -/
@[inline] def use {α : Type} (s : State) (x : Except Trap α) (f : α → Outcome) : Outcome :=
  match x with
  | .ok a => f a
  | .error t => .error (t, s)

end Outcome

namespace State

/-- Pushes a word. The stack pointer moves even if the word cannot be stored. -/
def push (s : State) (v : Int64) : Outcome :=
  let s := s.set .rsp (s.get .rsp - 8)
  Outcome.orElse s (s.store (s.get .rsp) v)

def pop (s : State) : Except Trap (Int64 × State) := do
  let v ← s.load (s.get .rsp)
  return (v, s.set .rsp (s.get .rsp + 8))

end State

namespace Image

/-- The value of a constant: a global's address, else a label's address in code. -/
def constValue (img : Image) : Const → Except Trap Int64
  | .imm v => .ok v
  | .sym n =>
    match img.globals[n]?, img.labels[n]? with
    | some address, _ => .ok address
    | none, some i => .ok (Int64.ofNat i * 8)
    | none, none => .error (.unknownLabel n)

def address (img : Image) (s : State) (m : Mem) : Except Trap Int64 := do
  let base := match m.base with
    | none | some .rip => 0
    | some r => s.get r
  let index := match m.index with
    | none => 0
    | some (r, scale) => s.get r * scale
  return base + index + (← img.constValue m.disp)

def value (img : Image) (s : State) : Operand → Except Trap Int64
  | .reg r => .ok (s.get r)
  | .const c => img.constValue c
  | .mem m => do s.load (← img.address s m)
  | .absent => .error .emptyOperand

/-- The state with the destination `dst` set to a word. -/
def assign (img : Image) (s : State) (dst : Operand) (v : Int64) : Except Trap State :=
  match dst with
  | .reg r => .ok (s.set r v)
  | .mem m => do s.store (← img.address s m) v
  | .const _ | .absent => .error (.unassignable dst)

/-- Lays the strings of globals out one after another from an address on. Of equal
names the last counts. -/
def placeGlobals : List Code.Global → Std.TreeMap Name Int64 × Memory × Int64 →
    Std.TreeMap Name Int64 × Memory × Int64
  | [], placed => placed
  | g :: rest, (table, memory, address) =>
    placeGlobals rest (table.insert g.name address, memory.writeText address g.content,
      address + 8 + 8 * Int64.ofNat g.content.length)

end Image

def load (p : Program) : Image × State :=
  let (globals, memory, heap) := Image.placeGlobals p.globals (∅, .empty, dataStart)
  ({ code := p.code.toArray, labels := labelTable p.code, globals },
    { regs := Registers.zero.set .rsp stackTop, memory, left := 0, right := 0, heap,
      ip := 0, steps := 0, output := #[] })

end X64Backend.Machine
