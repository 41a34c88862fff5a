import X64Backend.Machine.State
import X64Backend.Text.Numeral

/-! # Built-in functions

Functions that the machine serves itself. Their arguments and results are in the
registers of a call; strings are passed by the address of their length.
-/

namespace X64Backend.Machine

open Asm

/-- The functions that the machine serves. -/
inductive Builtin
  | println
  | malloc
  | intToString
  | stringToInt
  | stringConcat
  | throw
  deriving DecidableEq

namespace Builtin

def all : List Builtin := [.println, .malloc, .intToString, .stringToInt, .stringConcat, .throw]

def name : Builtin → Name
  | .println => "_builtin_println"
  | .malloc => "_builtin_malloc"
  | .intToString => "_builtin_intToString"
  | .stringToInt => "_builtin_stringToInt"
  | .stringConcat => "_builtin_stringConcat"
  | .throw => "_builtin_throw"

def ofName? (n : Name) : Option Builtin := all.find? fun b => b.name = n

end Builtin

namespace State

/-- The string at an address: a length and as many words, of which the low bytes count. -/
def readText (s : State) (address : Int64) : Except Trap Bytes := do
  let n ← s.load address
  if n < 0 then throw (.badLength n address)
  else if maxTextLength < n.toInt then throw (.defect .hugeString)
  -- The words stand side by side, so the first that cannot be read is at the stack's top.
  else if stackTop.toInt < address.toInt + 8 + 8 * n.toInt then throw (.outOfRange stackTop)
  else return (s.memory.readAll n.toInt.toNat (address + 8)).map fun w => w.toUInt64.toUInt8

/-- Takes a block of zeroed memory. The size must be a multiple of eight, and the sum
of address and size is compared with the limit as a machine word. -/
def allocate (s : State) (size : Int64) : Except Trap (Int64 × State) :=
  if size < 0 || size % 8 ≠ 0 then .error (.badSize size)
  else if heapLimit < s.heap + size then .error (.outOfMemory size)
  else .ok (s.heap,
    { s with heap := s.heap + size, memory := s.memory.zeroRange s.heap (s.heap + size) })

/-- Takes a block for a string and writes it there. -/
def allocateText (s : State) (text : Bytes) : Except Trap (Int64 × State) := do
  let (address, s) ← s.allocate (8 + 8 * Int64.ofNat text.length)
  return (address, { s with memory := s.memory.writeText address text })

/-- Puts the address of a new block into the result register, or zero on a trap. -/
def giveBlock (s : State) : Except Trap (Int64 × State) → Outcome
  | .ok (address, s') => .ok (s'.set .rax address)
  | .error t => .error (t, s.set .rax 0)

end State

def Builtin.run (s : State) : Builtin → Outcome
  | .println =>
    Outcome.use s (s.readText (s.get (.machine .rdi))) fun text =>
      .ok { s with output := (s.output ++ text.toArray).push 10 }
  | .malloc => s.giveBlock (s.allocate (s.get (.machine .rdi)))
  | .intToString => s.giveBlock (s.allocateText (Bytes.ofWord (s.get (.machine .rdi))))
  | .stringToInt =>
    Outcome.use s (s.readText (s.get (.machine .rdi))) fun text =>
      match Numeral.readDecimal text with
      | .ok v => .ok (s.set .rax v)
      | .error _ => .error (.badNumber text, s)
  | .stringConcat =>
    Outcome.use s (s.readText (s.get (.machine .rdi))) fun a =>
      Outcome.use s (s.readText (s.get (.machine .rsi))) fun b =>
        s.giveBlock (s.allocateText (a ++ b))
  | .throw =>
    Outcome.use s (s.readText (s.get (.machine .rdi))) fun text => .error (.thrown text, s)

end X64Backend.Machine
