import X64Backend.Text.Bytes

/-! # Mid-level code

A module has globals and functions. A function body is a flat list of statements
over expression trees, and every value is a 64-bit word. Trees built by hand may
have places left empty and operators outside the language; both are kept as they
are, so that each consumer says for itself what it does about them.
-/

namespace X64Backend

/-- A name of a symbol, a temporary or a label. -/
abbrev Name := Bytes

namespace Code

/-- The twelve binary operators, or a symbol that is none of them. -/
inductive Op
  | add
  | sub
  | mul
  | div
  | mod
  | xor
  | lt
  | le
  | gt
  | ge
  | eq
  | ne
  | other (symbol : Bytes)
  deriving DecidableEq, Inhabited

namespace Op

/-- The operators of the language in the order of their symbols' levels. -/
def all : List Op := [.lt, .le, .gt, .ge, .eq, .ne, .xor, .add, .sub, .mul, .div, .mod]

def symbol : Op → Bytes
  | .add => "+"
  | .sub => "-"
  | .mul => "*"
  | .div => "/"
  | .mod => "%"
  | .xor => "^"
  | .lt => "<"
  | .le => "<="
  | .gt => ">"
  | .ge => ">="
  | .eq => "=="
  | .ne => "!="
  | .other s => s

def ofSymbol (s : Bytes) : Op := (all.find? fun op => op.symbol = s).getD (.other s)

/-- Operators whose value is one or zero. -/
def isComparison : Op → Bool
  | .lt | .le | .gt | .ge | .eq | .ne => true
  | _ => false

/-- Operators whose operands can be swapped. -/
def isCommutative : Op → Bool
  | .add | .mul | .xor => true
  | _ => false

/-- How tightly an operator binds, from zero for comparisons to three for products. -/
def level? : Op → Option Nat
  | .lt | .le | .gt | .ge | .eq | .ne => some 0
  | .xor => some 1
  | .add | .sub => some 2
  | .mul | .div | .mod => some 3
  | .other _ => none

end Op

def levelCount : Nat := 4

/-- An expression. A name is the address of a global symbol, a temporary is a local
variable, and `mem` is the word stored at an address. -/
inductive Expr
  | const (value : Int64)
  | name (symbol : Name)
  | temp (name : Name)
  | mem (address : Expr)
  | binary (op : Op) (left right : Expr)
  | absent
  deriving DecidableEq, Inhabited

/-- A statement over expressions of type `ε`. -/
inductive Stmt (ε : Type)
  | move (dest : Name) (src : ε)
  | store (address src : ε)
  | call (func : ε) (args : List ε) (result : Option Name)
  | jump (label : Name)
  | label (name : Name)
  | branch (cond : ε) (label : Name)
  | ret (value : Option ε)
  | absent
  deriving DecidableEq, Inhabited

/-- A named string laid out in memory. -/
structure Global where
  name : Name
  content : Bytes
  deriving DecidableEq, Inhabited

/-- A function with statements of type `σ`. -/
structure Func (σ : Type) where
  name : Name
  args : List Name
  returns : Bool
  body : List σ
  deriving DecidableEq, Inhabited

/-- Globals and functions with statements of type `σ`. -/
structure Module (σ : Type) where
  globals : List Global
  funcs : List (Func σ)
  deriving DecidableEq, Inhabited

abbrev SourceFunc := Func (Stmt Expr)

abbrev SourceModule := Module (Stmt Expr)

def Stmt.map {α β : Type} (f : α → β) : Stmt α → Stmt β
  | .move dest src => .move dest (f src)
  | .store address src => .store (f address) (f src)
  | .call func args result => .call (f func) (args.map f) result
  | .jump target => .jump target
  | .label l => .label l
  | .branch cond target => .branch (f cond) target
  | .ret value => .ret (value.map f)
  | .absent => .absent

def Func.map {σ τ : Type} (f : σ → τ) (fn : Func σ) : Func τ :=
  { name := fn.name, args := fn.args, returns := fn.returns, body := fn.body.map f }

def Module.map {σ τ : Type} (f : σ → τ) (m : Module σ) : Module τ :=
  { globals := m.globals, funcs := m.funcs.map (·.map f) }

/-- The temporaries of an expression from left to right. -/
def Expr.temps : Expr → List Name
  | .temp t => [t]
  | .mem address => address.temps
  | .binary _ left right => left.temps ++ right.temps
  | .const _ | .name _ | .absent => []

/-- The temporaries of a statement. The destination of a move comes first, the
result of a call last. -/
def Stmt.temps : Stmt Expr → List Name
  | .move dest src => dest :: src.temps
  | .store address src => address.temps ++ src.temps
  | .call func args result => func.temps ++ args.flatMap Expr.temps ++ result.toList
  | .branch cond _ => cond.temps
  | .ret value => (value.map Expr.temps).getD []
  | .jump _ | .label _ | .absent => []

/-- Every temporary of a function once: the arguments, then the others as they occur. -/
def Func.temps (fn : SourceFunc) : List Name :=
  (fn.args ++ fn.body.flatMap Stmt.temps).eraseDups

end Code

end X64Backend
