import X64Backend.Code.Basic

/-! # Descriptions of code

The short text by which comments and listings describe an expression or a
statement: fully parenthesised, without the marks that the reader needs. A tree
with an empty place has no description.
-/

namespace X64Backend.Code

/-- The description of an expression, if no place in it is empty. -/
def Expr.describe? : Expr → Option Bytes
  | .const value => some (Bytes.ofWord value)
  | .name symbol => some symbol
  | .temp t => some t
  | .mem address => do
    let a ← address.describe?
    return "MEM[" ++ a ++ "]"
  | .binary op left right => do
    let l ← left.describe?
    let r ← right.describe?
    return "(" ++ l ++ " " ++ op.symbol ++ " " ++ r ++ ")"
  | .absent => none

def Stmt.describe? : Stmt Expr → Option Bytes
  | .move dest src => do
    let s ← src.describe?
    return dest ++ " = " ++ s ++ ";"
  | .store address src => do
    let a ← address.describe?
    let s ← src.describe?
    return "MEM[" ++ a ++ "] = " ++ s ++ ";"
  | .call func args result => do
    let f ← func.describe?
    let as ← args.mapM Expr.describe?
    let into : Bytes := match result with
      | some name => name ++ " = "
      | none => []
    return into ++ f ++ "(" ++ Bytes.join ", " as ++ ");"
  | .jump target => some ("goto " ++ target ++ ";")
  | .label l => some (l ++ ":")
  | .branch cond target => do
    let c ← cond.describe?
    return "if " ++ c ++ " goto " ++ target ++ ";"
  | .ret none => some "return;"
  | .ret (some value) => do
    let v ← value.describe?
    return "return " ++ v ++ ";"
  | .absent => none

end X64Backend.Code
