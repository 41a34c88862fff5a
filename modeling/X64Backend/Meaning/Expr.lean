import X64Backend.Machine.Builtin

/-! # The meaning of expressions

What an expression denotes, said directly and without code for it: words with
wrapping arithmetic, comparisons that give one or zero, and words of memory behind
the machine's address check. The address of a function is no word; it can be kept
and called and nothing else.
-/

namespace X64Backend.Meaning

open Code Machine

/-- A word, or the address of a function. -/
inductive Value
  | word (v : Int64)
  | func (name : Name)
  deriving DecidableEq, Inhabited

inductive Fault
  | unassigned (temp : Name)
  | unknownName (name : Name)
  | notAWord (func : Name)
  | notAFunc (v : Int64)
  | wrongCount (func : Name)
  | noResult (func : Name)
  | undefinedLabel (label : Name)
  | empty
  | unknownOp (symbol : Bytes)
  | trap (t : Trap)
  deriving DecidableEq

def ofBool (b : Bool) : Int64 := if b then 1 else 0

/-- The result of an operator on words. Quotients are truncated and remainders take the
sign of the dividend. -/
def evalOp (op : Op) (l r : Int64) : Except Fault Int64 :=
  match op with
  | .add => .ok (l + r)
  | .sub => .ok (l - r)
  | .mul => .ok (l * r)
  | .xor => .ok (l ^^^ r)
  | .div => if r = 0 then .error (.trap .divisionByZero) else .ok (l / r)
  | .mod => if r = 0 then .error (.trap .divisionByZero) else .ok (l % r)
  | .lt => .ok (ofBool (l < r))
  | .le => .ok (ofBool (l ≤ r))
  | .gt => .ok (ofBool (r < l))
  | .ge => .ok (ofBool (r ≤ l))
  | .eq => .ok (ofBool (l == r))
  | .ne => .ok (ofBool (l != r))
  | .other symbol => .error (.unknownOp symbol)

/-- What names mean outside of functions: the addresses of globals and the functions
there are. Memory can be used below `limit`. -/
structure Scope where
  globals : Name → Option Int64
  isFunc : Name → Bool
  limit : Int64

abbrev Temps := Name → Option Value

/-- The temporaries with one assigned, or taken away. -/
def Temps.set (temps : Temps) (t : Name) (v : Option Value) : Temps :=
  fun u => if u = t then v else temps u

def Temps.none : Temps := fun _ => .none

def Value.toWord : Value → Except Fault Int64
  | .word v => .ok v
  | .func f => .error (.notAWord f)

/-- Checks that memory can be used at an address. -/
def Scope.checkAddress (scope : Scope) (address : Int64) : Except Fault Unit :=
  match State.checkAddress address with
  | .error t => .error (.trap t)
  | .ok () => if scope.limit ≤ address then .error (.trap (.outOfRange address)) else .ok ()

def Scope.name (scope : Scope) (n : Name) : Except Fault Value :=
  match scope.globals n with
  | some address => .ok (.word address)
  | none => if scope.isFunc n then .ok (.func n) else .error (.unknownName n)

def eval (scope : Scope) (temps : Temps) (memory : Memory) : Expr → Except Fault Value
  | .const v => .ok (.word v)
  | .name n => scope.name n
  | .temp t => match temps t with
    | some v => .ok v
    | none => .error (.unassigned t)
  | .mem a => do
    let address ← (← eval scope temps memory a).toWord
    scope.checkAddress address
    return .word (memory.read address)
  | .binary op l r => do
    let a ← (← eval scope temps memory l).toWord
    let b ← (← eval scope temps memory r).toWord
    return .word (← evalOp op a b)
  | .absent => .error .empty

end X64Backend.Meaning
