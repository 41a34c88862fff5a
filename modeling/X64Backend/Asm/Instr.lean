import X64Backend.Asm.Reg
import X64Backend.Defect

/-! # Instructions

The instructions that code is selected into, over machine and abstract registers
alike, with the operands they take.
-/

namespace X64Backend.Asm

/-- A number, or the address of a symbol. -/
inductive Const
  | imm (value : Int64)
  | sym (name : Name)
  deriving DecidableEq, Inhabited

/-- The constant that a symbol stands for. The empty name is no symbol and counts as zero. -/
def Const.ofName (n : Name) : Const := if n.isEmpty then .imm 0 else .sym n

/-- A word in memory, at base plus scaled index plus displacement. -/
structure Mem where
  base : Option Reg
  index : Option (Reg × Int64)
  disp : Const
  deriving DecidableEq, Inhabited

namespace Mem

/-- The base that a register makes. The register without a name is no base. -/
def baseOf (r : Reg) : Option Reg := if r = .abstract [] then none else some r

/-- The index that a register makes with a scale. No register is scaled by zero. -/
def indexOf (r : Reg) (scale : Int64) : Option (Reg × Int64) :=
  if scale = 0 then none else some (r, scale)

def atReg (r : Reg) : Mem := { base := baseOf r, index := none, disp := .imm 0 }

/-- The word some bytes above where a register points. -/
def offset (r : Reg) (d : Int64) : Mem := { base := baseOf r, index := none, disp := .imm d }

/-- The word at a symbol, addressed from the instruction pointer. -/
def atSymbol (n : Name) : Mem := { base := some .rip, index := none, disp := .ofName n }

def scaled (r : Reg) (scale : Int64) : Mem :=
  { base := none, index := indexOf r scale, disp := .imm 0 }

/-- The `n`-th word below the frame pointer, counted from one. -/
def slot (n : Int) : Mem := offset .rbp (-8 * Int64.ofInt n)

/-- The registers that an address is made of, base first. The instruction pointer as
a base is none of them. -/
def regs (m : Mem) : List Reg :=
  (match m.base with
    | none | some .rip => []
    | some r => [r]) ++
  (match m.index with
    | none => []
    | some (r, _) => [r])

end Mem

/-- An operand. A place for one may have been left empty. -/
inductive Operand
  | reg (r : Reg)
  | const (c : Const)
  | mem (m : Mem)
  | absent
  deriving DecidableEq, Inhabited

def Operand.imm (v : Int64) : Operand := .const (.imm v)

/-- Conditions on the last comparison. Codes beyond the last have no meaning. -/
inductive Cond
  | jmp
  | je
  | jne
  | jl
  | jle
  | jg
  | jge
  | jz
  | jnz
  | other (code : Int)
  deriving DecidableEq, Inhabited

namespace Cond

def all : List Cond := [.jmp, .je, .jne, .jl, .jle, .jg, .jge, .jz, .jnz]

def ofCode (code : Int) : Cond :=
  match code with
  | .ofNat n => all.getD n (.other code)
  | .negSucc _ => .other code

/-- The name of the jump on a condition, unless its code has no meaning. -/
def name? : Cond → Option Bytes
  | .jmp => some "jmp"
  | .je => some "je"
  | .jne => some "jne"
  | .jl => some "jl"
  | .jle => some "jle"
  | .jg => some "jg"
  | .jge => some "jge"
  | .jz => some "jz"
  | .jnz => some "jnz"
  | .other _ => none

/-- Whether a jump on the condition may fall through. -/
def isConditional (c : Cond) : Bool := c != .jmp

/-- Whether the condition holds after comparing two words. -/
def holds (c : Cond) (l r : Int64) : Except Defect Bool :=
  match c with
  | .jmp => .ok true
  | .je => .ok (l == r)
  | .jne => .ok (l != r)
  | .jl => .ok (l < r)
  | .jle => .ok (l ≤ r)
  | .jg => .ok (r < l)
  | .jge => .ok (r ≤ l)
  | .jz => .ok (l - r == 0)
  | .jnz => .ok (l - r != 0)
  | .other code => .error (.meaninglessCond code)

end Cond

/-- Two-operand operations that share one form. Codes beyond the last have no meaning. -/
inductive Arith
  | add
  | sub
  | xor
  | other (code : Int)
  deriving DecidableEq, Inhabited

namespace Arith

def all : List Arith := [.add, .sub, .xor]

def ofCode (code : Int) : Arith :=
  match code with
  | .ofNat n => all.getD n (.other code)
  | .negSucc _ => .other code

/-- The name of an operation, unless its code has no meaning. -/
def name? : Arith → Option Bytes
  | .add => some "add"
  | .sub => some "sub"
  | .xor => some "xor"
  | .other _ => none

/-- The result of an operation, unless its code has no meaning. -/
def result? : Arith → Int64 → Int64 → Option Int64
  | .add, d, s => some (d + s)
  | .sub, d, s => some (d - s)
  | .xor, d, s => some (d ^^^ s)
  | .other _, _, _ => none

end Arith

/-- An instruction. A place for one may have been left empty. -/
inductive Instr
  | movAbs (dst : Reg) (value : Int64)
  | mov (dst src : Operand)
  | lea (dst : Reg) (src : Mem)
  | cmp (left right : Operand)
  | set (cond : Cond) (dst : Reg)
  | jump (cond : Cond) (target : Name)
  | call (target : Operand)
  | ret
  | arith (op : Arith) (dst src : Operand)
  | imul (dst : Reg) (src : Operand)
  | imul3 (dst : Reg) (src : Operand) (factor : Int64)
  | cqo
  | idiv (src : Operand)
  | neg (dst : Operand)
  | shl (dst : Operand) (count : Int64)
  | push (src : Operand)
  | popRbp
  | label (name : Name)
  | comment (text : Bytes)
  | absent
  deriving DecidableEq, Inhabited

/-- Whether a word can be written as a sign-extended 32-bit immediate. -/
def isImm32 (v : Int64) : Bool := -0x80000000 ≤ v && v < 0x80000000

/-- Loads a word into a register, in the long form only where it must. -/
def Instr.load (r : Reg) (v : Int64) : Instr :=
  if isImm32 v then .mov (.reg r) (.imm v) else .movAbs r v

def Instr.copy (dst src : Reg) : Instr := .mov (.reg dst) (.reg src)

/-- How many abstract registers were issued to a function so far. -/
structure Supply where
  issued : Nat
  deriving DecidableEq, Inhabited

def Supply.next (s : Supply) : Reg × Supply := (.issued s.issued, ⟨s.issued + 1⟩)

end X64Backend.Asm
