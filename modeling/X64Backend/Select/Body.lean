import X64Backend.Select.Cover

/-! # Covering statements

A statement becomes a list of instructions. Calls follow the System V convention:
six arguments in registers, the others pushed from the last on, with the stack kept
aligned to sixteen bytes.
-/

namespace X64Backend.Select

open Asm Code

/-- The label that a function's returns jump to. -/
def epilogueLabel (func : Name) : Name := "LABEL_FUNCTION_CALL_EPILOGUE_FOR_" ++ func

/-- Words that arguments take on the stack, padding included. -/
def stackWords (args : Nat) : Nat :=
  let pushed := args - MachineReg.arguments.length
  pushed + pushed % 2

/-- Puts arguments where the callee finds them, the last first. -/
def passArgs (args : List Operand) : List Instr :=
  let inRegisters := (MachineReg.arguments.zip args).map fun (r, a) =>
    Instr.mov (.reg (.machine r)) a
  let onStack := (args.drop MachineReg.arguments.length).map Instr.push
  onStack.reverse ++ inRegisters.reverse

/-- The call itself, with its stack words taken before it and given back behind it. -/
def callCode (target : Operand) (args : List Operand) (result : Option Name) : List Instr :=
  let words := stackWords args.length
  let padding : List Instr :=
    if (args.length - MachineReg.arguments.length) % 2 = 0 then []
    else [.arith .sub (.reg .rsp) (.imm 8)]
  let keep : List Instr := match result with
    | some n => [.copy (.ofName n) .rax]
    | none => []
  let release : List Instr :=
    if words = 0 then [] else [.arith .add (.reg .rsp) (.imm (8 * Int64.ofNat words))]
  padding ++ passArgs args ++ [.call target] ++ keep ++ release

section

variable (expr : Node → Selection (Tile Reg))

/-- Operands of a call from left to right, with the code before them. -/
def callOperands : List Node → Selection (List Instr × List Operand)
  | [] => return ([], [])
  | a :: rest => do
    let t ← operand expr a
    let (code, operands) ← callOperands rest
    return (t.code ++ code, t.result :: operands)

/-- A call. A name is called as a symbol, anything else through an operand. -/
def tileCall (description : Bytes) (func : Node) (args : List Node) (result : Option Name) :
    Selection (List Instr) := do
  let target : Tile Operand ← match func with
    | .name _ n => pure ⟨[], .const (.ofName n)⟩
    | _ => operand expr func
  let (code, operands) ← callOperands expr args
  let callee ← described func.expr.describe?
  return .comment description :: target.code ++ code ++
    .comment ("calling " ++ callee) :: callCode target.result operands result ++
    [.comment ("called " ++ callee)]

/-- A conditional jump. A comparison is tested as such, anything else against zero. -/
def tileBranch (description : Bytes) (cond : Node) (target : Name) : Selection (List Instr) := do
  let compared : Option (Cond × Node × Node) := match cond with
    | .binary _ op l r => (cond? op).map fun c => (c, l, r)
    | _ => none
  match compared with
  | some (c, l, r) =>
    let x ← expr l
    let y ← immOrReg expr r
    return .comment description :: x.code ++ y.code ++
      [.cmp (.reg x.result) y.result, .jump c target]
  | none =>
    let x ← regOrMem expr cond
    return .comment description :: x.code ++ [.cmp x.result (.imm 0), .jump .jnz target]

def tileStmt (func : Name) (s : Stmt Node) : Selection (List Instr) := do
  match s with
  | .move dest src =>
    let t ← operand expr src
    return t.code ++ [.mov (.reg (.ofName dest)) t.result]
  | .store address src =>
    let m ← memory expr address
    let t ← immOrReg expr src
    return m.code ++ t.code ++ [.mov (.mem m.result) t.result]
  | .call callee args result =>
    let description ← described (s.map Node.expr).describe?
    tileCall expr description callee args result
  | .jump target => return [.jump .jmp target]
  | .label l => return [.label l]
  | .branch cond target =>
    let description ← described (s.map Node.expr).describe?
    tileBranch expr description cond target
  | .ret value =>
    let description ← described (s.map Node.expr).describe?
    let code ← match value with
      | some v => do
        let t ← operand expr v
        pure (t.code ++ [.mov (.reg .rax) t.result])
      | none => pure []
    return .comment description :: code ++ [.jump .jmp (epilogueLabel func)]
  | .absent => throw .emptyStmt

end

/-- A bound on the height of the nodes of a statement. -/
def stmtHeight : Stmt Node → Nat
  | .move _ src => src.height
  | .store address src => max address.height src.height
  | .call func args _ => args.foldl (fun h a => max h a.height) func.height
  | .branch cond _ => cond.height
  | .ret (some v) => v.height
  | .ret none | .jump _ | .label _ | .absent => 0

/-- The code of a statement of a function, from the memo if it is there. -/
def coverStmt (func : Name) (s : NodeStmt) : Selection (List Instr) := do
  match s.stmt, (← get).stmts[s.id]? with
  | .absent, _ | _, none =>
    countMiss
    let code ← tileStmt (coverWithin (stmtHeight s.stmt)) func s.stmt
    modify fun memo => { memo with stmts := memo.stmts.insert s.id code }
    return code
  | _, some code => return code

/-- The code of a function's body, closed by the label that returns jump to. -/
def coverBody (func : Name) (body : List NodeStmt) : Selection (List Instr) := do
  let codes ← body.mapM (coverStmt func)
  return codes.flatten ++ [.label (epilogueLabel func)]

end X64Backend.Select
