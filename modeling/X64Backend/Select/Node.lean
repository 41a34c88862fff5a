import X64Backend.Code.Basic

/-! # Expressions with identity

Selection does the work for a node once, however often the node is used. A node is
an expression tree whose every place carries a number; places with the same number
are uses of one node. A tree that was read from text is numbered so that no two
places share a number.
-/

namespace X64Backend.Select

open Code

/-- An expression tree with a number at every place. -/
inductive Node
  | const (id : Nat) (value : Int64)
  | name (id : Nat) (symbol : Name)
  | temp (id : Nat) (name : Name)
  | mem (id : Nat) (address : Node)
  | binary (id : Nat) (op : Op) (left right : Node)
  | absent
  deriving DecidableEq, Inhabited

namespace Node

def expr : Node → Expr
  | .const _ v => .const v
  | .name _ n => .name n
  | .temp _ n => .temp n
  | .mem _ a => .mem a.expr
  | .binary _ op l r => .binary op l.expr r.expr
  | .absent => .absent

/-- The number of a node. An empty place has none. -/
def id? : Node → Option Nat
  | .const id _ | .name id _ | .temp id _ | .mem id _ | .binary id _ _ _ => some id
  | .absent => none

def height : Node → Nat
  | .const _ _ | .name _ _ | .temp _ _ | .absent => 1
  | .mem _ a => a.height + 1
  | .binary _ _ l r => max l.height r.height + 1

/-- The expression with places numbered from `next` on, and the next number. -/
def number (next : Nat) : Expr → Node × Nat
  | .const v => (.const next v, next + 1)
  | .name n => (.name next n, next + 1)
  | .temp n => (.temp next n, next + 1)
  | .mem a =>
    let (a, id) := number next a
    (.mem id a, id + 1)
  | .binary op l r =>
    let (l, mid) := number next l
    let (r, id) := number mid r
    (.binary id op l r, id + 1)
  | .absent => (.absent, next)

def numberAll (next : Nat) : List Expr → List Node × Nat
  | [] => ([], next)
  | e :: rest =>
    let (n, mid) := number next e
    let (ns, last) := numberAll mid rest
    (n :: ns, last)

end Node

/-- A statement over nodes with a number of its own. Uses of one statement share it. -/
structure NodeStmt where
  id : Nat
  stmt : Stmt Node
  deriving DecidableEq, Inhabited

namespace NodeStmt

def plain (s : NodeStmt) : Stmt Expr := s.stmt.map Node.expr

/-- The statement with places and itself numbered from `next` on, and the next number. -/
def number (next : Nat) : Stmt Expr → NodeStmt × Nat
  | .move dest src =>
    let (n, id) := Node.number next src
    (⟨id, .move dest n⟩, id + 1)
  | .store address src =>
    let (a, mid) := Node.number next address
    let (n, id) := Node.number mid src
    (⟨id, .store a n⟩, id + 1)
  | .call func args result =>
    let (f, mid) := Node.number next func
    let (as, id) := Node.numberAll mid args
    (⟨id, .call f as result⟩, id + 1)
  | .jump target => (⟨next, .jump target⟩, next + 1)
  | .label l => (⟨next, .label l⟩, next + 1)
  | .branch cond target =>
    let (c, id) := Node.number next cond
    (⟨id, .branch c target⟩, id + 1)
  | .ret none => (⟨next, .ret none⟩, next + 1)
  | .ret (some value) =>
    let (v, id) := Node.number next value
    (⟨id, .ret (some v)⟩, id + 1)
  | .absent => (⟨next, .absent⟩, next + 1)

def numberAll (next : Nat) : List (Stmt Expr) → List NodeStmt
  | [] => []
  | s :: rest =>
    let (n, mid) := number next s
    n :: numberAll mid rest

end NodeStmt

/-- The module with the places of each function numbered without repetition. -/
def numberModule (m : SourceModule) : Module NodeStmt where
  globals := m.globals
  funcs := m.funcs.map fun f =>
    { name := f.name, args := f.args, returns := f.returns, body := NodeStmt.numberAll 0 f.body }

end X64Backend.Select
