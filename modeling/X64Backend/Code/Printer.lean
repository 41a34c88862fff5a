import X64Backend.Code.Basic
import X64Backend.Text.Quoted

/-! # Printing code

The one layout of a module: a global a line, an empty line between functions, a
tab before each statement that is no label, and parentheses only where an operand
binds weaker than its place asks. What the reader cannot read is refused.
-/

namespace X64Backend.Code

namespace Printer

/-- A step on the way to the part of a tree that cannot be printed. -/
inductive Place
  | src
  | index
  | callee
  | arg (position : Nat)
  | cond
  | value
  | left
  | right
  | func (name : Name)
  deriving DecidableEq

def Place.message : Place → Bytes
  | .src => "src"
  | .index => "index"
  | .callee => "func"
  | .arg position => "arg " ++ Bytes.ofNat position
  | .cond => "cond"
  | .value => "value"
  | .left => "left"
  | .right => "right"
  | .func name => "func " ++ name

/-- Why a part of a tree cannot be printed. -/
inductive Cause
  | emptyTree
  | emptyStmt
  | emptyExpr
  | unknownOp (symbol : Bytes)
  deriving DecidableEq

def Cause.message : Cause → Bytes
  | .emptyTree => "unsupported type: <nil>"
  | .emptyStmt => "unsupported stmt: <nil>"
  | .emptyExpr => "unsupported expr: <nil>"
  | .unknownOp symbol => "unsupported op: " ++ symbol

/-- A part that cannot be printed and the way to it, outermost step first. -/
structure Fault where
  path : List Place
  cause : Cause
  deriving DecidableEq

def Fault.message (fault : Fault) : Bytes :=
  Bytes.messageChain (fault.path.map Place.message ++ [fault.cause.message])

/-- The printed text of a part of what is being printed. -/
abbrev Printed := Except Fault Bytes

def refuse (cause : Cause) : Printed := .error { path := [], cause }

/-- A part reached by a step. -/
def «at» (place : Place) : Printed → Printed
  | .ok text => .ok text
  | .error fault => .error { fault with path := place :: fault.path }

end Printer

open Printer

/-- The expression as an operand that must bind at least as tightly as `level`. -/
def Expr.print (level : Nat) : Expr → Printed
  | .const value => .ok (Bytes.ofWord value)
  | .name symbol => .ok ("@" ++ symbol)
  | .temp t => .ok t
  | .mem address => do
    let a ← Printer.at .index (address.print 0)
    return "mem[" ++ a ++ "]"
  | .binary op left right =>
    match op.level? with
    | none => refuse (.unknownOp op.symbol)
    | some own => do
      let l ← Printer.at .left (left.print own)
      let r ← Printer.at .right (right.print (own + 1))
      let text := l ++ " " ++ op.symbol ++ " " ++ r
      return if own < level then "(" ++ text ++ ")" else text
  | .absent => refuse .emptyExpr

def printArgs : Nat → List Expr → Except Fault (List Bytes)
  | _, [] => .ok []
  | position, e :: rest => do
    let text ← Printer.at (.arg position) (e.print 0)
    return text :: (← printArgs (position + 1) rest)

/-- The statement on a line of its own, behind `indent` unless it is a label. -/
def Stmt.print (indent : Bytes) : Stmt Expr → Printed
  | .move dest src => do
    let s ← Printer.at .src (src.print 0)
    return indent ++ dest ++ " = " ++ s ++ "\n"
  | .store address src => do
    let a ← Printer.at .index (address.print 0)
    let s ← Printer.at .src (src.print 0)
    return indent ++ "mem[" ++ a ++ "] = " ++ s ++ "\n"
  | .call func args result => do
    let f ← Printer.at .callee (func.print levelCount)
    let as ← printArgs 0 args
    let into : Bytes := match result with
      | some name => name ++ " = "
      | none => []
    return indent ++ into ++ "call " ++ f ++ "(" ++ Bytes.join ", " as ++ ")\n"
  | .jump target => .ok (indent ++ "goto " ++ target ++ "\n")
  | .label l => .ok (l ++ ":\n")
  | .branch cond target => do
    let c ← Printer.at .cond (cond.print 0)
    return indent ++ "if " ++ c ++ " goto " ++ target ++ "\n"
  | .ret none => .ok (indent ++ "return\n")
  | .ret (some value) => do
    let v ← Printer.at .value (value.print 0)
    return indent ++ "return " ++ v ++ "\n"
  | .absent => refuse .emptyStmt

/-- The function with its body one tab deep. -/
def Func.print (fn : SourceFunc) : Printed := do
  let lines ← fn.body.mapM (Stmt.print "\t")
  let type : Bytes := if fn.returns then " int" else []
  return "func " ++ fn.name ++ "(" ++ Bytes.join ", " fn.args ++ ")" ++ type ++ " \x7b\n" ++
    lines.flatten ++ "\x7d\n"

def Global.print (g : Global) : Bytes :=
  "global " ++ g.name ++ " = " ++ Quoted.write g.content ++ "\n"

/-- The module. An empty line stands before each function that is not first in the text. -/
def Module.print (m : SourceModule) : Printed := do
  let funcs ← m.funcs.mapM fun f => Printer.at (.func f.name) f.print
  let globals := (m.globals.map Global.print).flatten
  let texts := Bytes.join "\n" funcs
  return globals ++ (if m.globals.isEmpty || funcs.isEmpty then [] else "\n") ++ texts

end X64Backend.Code
