import X64Backend.Asm.Instr

/-! # Assembly text

Instructions in Intel order, one a line; a conditional set takes two lines. A
program is the text section with its functions and, if there are globals, the data
section, where a string is its length and its bytes, a word each.
-/

namespace X64Backend.Asm

def Const.text : Const → Bytes
  | .imm value => Bytes.ofWord value
  | .sym n => n

/-- The text of a memory operand. A zero displacement is left out unless nothing
else stands between the brackets. -/
def Mem.text (m : Mem) : Bytes :=
  let base : Bytes := (m.base.map Reg.name).getD []
  let plus (head : Bytes) : Bytes := if head.isEmpty then [] else "+"
  let head : Bytes := match m.index with
    | none => base
    | some (r, scale) => base ++ plus base ++ r.name ++ "*" ++ Bytes.ofWord scale
  let body : Bytes := match m.disp with
    | .sym n => head ++ plus head ++ n
    | .imm d =>
      if head.isEmpty then Bytes.ofWord d
      else if 0 < d then head ++ "+" ++ Bytes.ofWord d
      else if d < 0 then head ++ Bytes.ofWord d
      else head
  "qword ptr [" ++ body ++ "]"

def Operand.text : Operand → Except Defect Bytes
  | .reg r => .ok r.name
  | .const c => .ok c.text
  | .mem m => .ok m.text
  | .absent => .error .emptyOperand

def textOf1 (op : Bytes) (x : Operand) : Except Defect Bytes := do
  return op ++ " " ++ (← x.text)

/-- An operation with two operands, destination first. -/
def textOf2 (op : Bytes) (x y : Operand) : Except Defect Bytes := do
  let a ← x.text
  let b ← y.text
  return op ++ " " ++ a ++ ", " ++ b

/-- The name of a condition or operation, which must have one. -/
def nameOf : Option Bytes → Except Defect Bytes
  | some n => .ok n
  | none => .error .namelessCode

/-- The text of an instruction, without a line break at its end. -/
def Instr.text : Instr → Except Defect Bytes
  | .movAbs dst value => .ok ("movabs " ++ dst.name ++ ", " ++ Bytes.ofWord value)
  | .mov dst src => textOf2 "mov" dst src
  | .lea dst src => textOf2 "lea" (.reg dst) (.mem src)
  | .cmp l r => textOf2 "cmp" l r
  | .set cond dst => do
    let c ← nameOf cond.name?
    return "set" ++ c.drop 1 ++ " " ++ dst.byteName ++ "\nmovzx " ++ dst.name ++ ", " ++ dst.byteName
  | .jump cond target => do
    let c ← nameOf cond.name?
    return c ++ " " ++ target
  | .call target => textOf1 "call" target
  | .ret => .ok "ret"
  | .arith op dst src => do
    let o ← nameOf op.name?
    textOf2 o dst src
  | .imul dst src => textOf2 "imul" (.reg dst) src
  | .imul3 dst src factor => do
    return (← textOf2 "imul" (.reg dst) src) ++ ", " ++ Bytes.ofWord factor
  | .cqo => .ok "cqo"
  | .idiv src => textOf1 "idiv" src
  | .neg dst => textOf1 "neg" dst
  | .shl dst count => do
    return (← textOf1 "shl" dst) ++ ", " ++ Bytes.ofWord count
  | .push src => textOf1 "push" src
  | .popRbp => .ok "pop rbp"
  | .label n => .ok (n ++ ":")
  | .comment t => .ok ("## " ++ t)
  | .absent => .error .emptyInstr

def listing (code : List Instr) : Except Defect Bytes := do
  return Bytes.join "\n" (← code.mapM Instr.text)

/-- A program: globals, the names of its functions, and their code. -/
structure Program where
  globals : List Code.Global
  funcs : List Name
  code : List Instr
  deriving DecidableEq, Inhabited

/-- The line of an instruction in a program. A label stands at the margin below an
empty line, everything else behind a tab. -/
def Instr.line (x : Instr) : Except Defect Bytes := do
  let t ← x.text
  match x with
  | .label _ => return "\n" ++ t ++ "\n"
  | _ => return "\t" ++ Bytes.indentLines "\t" t ++ "\n"

def globalText (g : Code.Global) : Bytes :=
  let quad (n : Nat) : Bytes := "\t.quad " ++ Bytes.ofNat n ++ "\n"
  g.name ++ ":\n" ++ quad g.content.length ++ g.content.flatMap fun c => quad c.toNat

/-- The line that makes a function visible from outside. -/
def exportLine (func : Name) : Bytes := "\t.globl " ++ func ++ "\n"

def Program.text (p : Program) : Except Defect Bytes := do
  let lines ← p.code.mapM Instr.line
  let data : Bytes := if p.globals.isEmpty then [] else
    "\n\t.data\n\t.p2align 3\n" ++ p.globals.flatMap globalText
  return "\t.intel_syntax noprefix\n\t.text\n" ++
    p.funcs.flatMap exportLine ++ lines.flatten ++ data

end X64Backend.Asm
