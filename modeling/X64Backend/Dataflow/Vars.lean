import Std.Data.TreeMap
import X64Backend.Asm.Instr
import X64Backend.Wire

/-! # Numbered registers

Registers get numbers in the order in which they are first met. The machine
registers always come first, in their own order.
-/

namespace X64Backend.Dataflow

open Asm

/-- Registers by number and numbers by register name. -/
structure Vars where
  regs : Array Reg
  ids : Std.TreeMap Name Nat

namespace Vars

/-- The number of a register, with the register added if it is new. -/
def add (v : Vars) (r : Reg) : Nat × Vars :=
  match v.ids[r.name]? with
  | some id => (id, v)
  | none => (v.regs.size, { regs := v.regs.push r, ids := v.ids.insert r.name v.regs.size })

def addAll (v : Vars) (rs : List Reg) : Vars := rs.foldl (fun v r => (v.add r).2) v

def machine : Vars := addAll { regs := #[], ids := ∅ } (MachineReg.all.map .machine)

def machineCount : Nat := 16

def id? (v : Vars) (r : Reg) : Option Nat := v.ids[r.name]?

def name (v : Vars) (id : Int) : Except Defect Reg :=
  match id with
  | .ofNat n => match v.regs[n]? with
    | some r => .ok r
    | none => .error .unknownVariable
  | .negSucc _ => .error .unknownVariable

def isMachine (id : Nat) : Bool := id < machineCount

def size (v : Vars) : Nat := v.regs.size

/-- The wire form: all names in order. -/
def wire (v : Vars) : Bytes := Wire.list (v.regs.toList.map fun r => Wire.text r.name)

end Vars

end X64Backend.Dataflow
