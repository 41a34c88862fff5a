import X64Backend.Code.Basic

/-! # Registers

The sixteen general registers of the machine, the instruction pointer as it stands
in addresses, and abstract registers with names of their own. Code is selected over
abstract registers and allocated to machine registers.
-/

namespace X64Backend.Asm

inductive MachineReg
  | rax
  | rbx
  | rcx
  | rdx
  | rsi
  | rdi
  | rsp
  | rbp
  | r8
  | r9
  | r10
  | r11
  | r12
  | r13
  | r14
  | r15
  deriving DecidableEq, Inhabited

namespace MachineReg

/-- The general registers in the order of their numbers. -/
def all : List MachineReg :=
  [.rax, .rbx, .rcx, .rdx, .rsi, .rdi, .rsp, .rbp, .r8, .r9, .r10, .r11, .r12, .r13, .r14, .r15]

def index : MachineReg → Fin 16
  | .rax => 0
  | .rbx => 1
  | .rcx => 2
  | .rdx => 3
  | .rsi => 4
  | .rdi => 5
  | .rsp => 6
  | .rbp => 7
  | .r8 => 8
  | .r9 => 9
  | .r10 => 10
  | .r11 => 11
  | .r12 => 12
  | .r13 => 13
  | .r14 => 14
  | .r15 => 15

def name : MachineReg → Name
  | .rax => "rax"
  | .rbx => "rbx"
  | .rcx => "rcx"
  | .rdx => "rdx"
  | .rsi => "rsi"
  | .rdi => "rdi"
  | .rsp => "rsp"
  | .rbp => "rbp"
  | .r8 => "r8"
  | .r9 => "r9"
  | .r10 => "r10"
  | .r11 => "r11"
  | .r12 => "r12"
  | .r13 => "r13"
  | .r14 => "r14"
  | .r15 => "r15"

/-- The name of the lowest byte of a register. -/
def byteName : MachineReg → Name
  | .rax => "al"
  | .rbx => "bl"
  | .rcx => "cl"
  | .rdx => "dl"
  | .rsi => "sil"
  | .rdi => "dil"
  | .rsp => "spl"
  | .rbp => "bpl"
  | .r8 => "r8b"
  | .r9 => "r9b"
  | .r10 => "r10b"
  | .r11 => "r11b"
  | .r12 => "r12b"
  | .r13 => "r13b"
  | .r14 => "r14b"
  | .r15 => "r15b"

/-- Registers that carry the first arguments of a call, in order. -/
def arguments : List MachineReg := [.rdi, .rsi, .rdx, .rcx, .r8, .r9]

def callerSaved : List MachineReg := [.rax, .rcx, .rdx, .rsi, .rdi, .r8, .r9, .r10, .r11]

/-- Registers that a function restores before it returns, apart from the frame's own. -/
def calleeSaved : List MachineReg := [.rbx, .r12, .r13, .r14, .r15]

/-- Registers with the same number are the same. -/
theorem index_inj {r q : MachineReg} : r.index = q.index ↔ r = q := by
  constructor
  · intro h
    cases r <;> cases q <;> first | rfl | exact absurd h (by decide)
  · rintro rfl
    rfl

end MachineReg

/-- A register operand. An abstract register has a name that is no register's name. -/
inductive Reg
  | machine (r : MachineReg)
  | rip
  | abstract (name : Name)
  deriving DecidableEq, Inhabited

namespace Reg

@[match_pattern] abbrev rax : Reg := .machine .rax
@[match_pattern] abbrev rdx : Reg := .machine .rdx
@[match_pattern] abbrev rsp : Reg := .machine .rsp
@[match_pattern] abbrev rbp : Reg := .machine .rbp
@[match_pattern] abbrev r9 : Reg := .machine .r9
@[match_pattern] abbrev r10 : Reg := .machine .r10
@[match_pattern] abbrev r11 : Reg := .machine .r11

def name : Reg → Name
  | .machine r => r.name
  | .rip => "rip"
  | .abstract n => n

def ofName (n : Name) : Reg :=
  if n = "rip" then .rip
  else match MachineReg.all.find? fun r => r.name = n with
    | some r => .machine r
    | none => .abstract n

/-- Whether the register is one of the sixteen. -/
def isMachine : Reg → Bool
  | .machine _ => true
  | _ => false

def isCalleeSaved : Reg → Bool
  | .machine r => MachineReg.calleeSaved.contains r
  | _ => false

/-- The name of the lowest byte, empty unless the register is one of the sixteen. -/
def byteName : Reg → Name
  | .machine r => r.byteName
  | _ => []

/-- How names of issued registers start. -/
def issuedMark : Name := "_ABSTRACT_REG_"

/-- How names of registers that keep callee-saved values start. -/
def savedMark : Name := "_CALLEE_SAVED_REG_"

/-- The `n`-th register that a function's supply issues. -/
def issued (n : Nat) : Reg := .abstract (issuedMark ++ Bytes.ofNat n)

/-- The abstract register that keeps the value of a callee-saved register. -/
def saved (r : Reg) : Reg := .abstract (savedMark ++ r.name)

end Reg

end X64Backend.Asm
