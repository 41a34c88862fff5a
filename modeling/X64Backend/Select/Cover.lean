import X64Backend.Select.Address

/-! # Covering expressions

Every expression is computed into a register. A binary operation is covered in up to
six ways, which are all worked out; the cheapest is taken, the earliest of equals.
-/

namespace X64Backend.Select

open Asm Code

def cond? : Op → Option Cond
  | .lt => some .jl
  | .le => some .jle
  | .gt => some .jg
  | .ge => some .jge
  | .eq => some .je
  | .ne => some .jne
  | _ => none

/-- The two-operand instruction of an operation that has one of the shared form. -/
def arith? : Op → Option Arith
  | .add => some .add
  | .sub => some .sub
  | .xor => some .xor
  | _ => none

/-- The exponent of a positive power of two. -/
def exponent? (v : Int64) : Option Nat :=
  if 0 < v && v &&& (v - 1) == 0 then some (Nat.log2 v.toInt.toNat) else none

section

variable (expr : Node → Selection (Tile Reg))

def memory (address : Node) : Selection (Tile Mem) := do
  match address with
  | .name _ n => return ⟨[], .atSymbol n⟩
  | _ =>
    match ← address? expr address with
    | some t => return t
    | none => return (← expr address).map Mem.atReg

/-- A word in memory as a memory operand, anything else in a register. -/
def regOrMem : Node → Selection (Tile Operand)
  | .mem _ a => return (← memory expr a).map .mem
  | n => return (← expr n).map .reg

/-- A small constant as an immediate, anything else in a register. -/
def immOrReg : Node → Selection (Tile Operand)
  | .const id c =>
    if isImm32 c then return ⟨[], .imm c⟩ else return (← expr (.const id c)).map .reg
  | n => return (← expr n).map .reg

/-- A small constant as an immediate, a word in memory as a memory operand, anything
else in a register. -/
def operand : Node → Selection (Tile Operand)
  | .const id c =>
    if isImm32 c then return ⟨[], .imm c⟩ else return (← expr (.const id c)).map .reg
  | n => regOrMem expr n

/-- The instructions that combine two operands into a register. -/
def combine? (op : Op) (res : Reg) (x y : Operand) : Option (List Instr) :=
  match op with
  | .add | .sub | .xor =>
    (arith? op).map fun a => [.mov (.reg res) x, .arith a (.reg res) y]
  | .mul => some [.mov (.reg res) x, .imul res y]
  | .div => some [.mov (.reg .rax) x, .cqo, .idiv y, .copy res .rax]
  | .mod => some [.mov (.reg .rax) x, .cqo, .idiv y, .copy res .rdx]
  | _ => none

/-- Left operand into a register, then the operation with the right one. -/
def tileGeneric (n : Node) (op : Op) (l r : Node) : Selection (Option (Tile Reg)) := do
  match op with
  | .add | .sub | .xor | .mul | .div | .mod =>
    let res ← fresh
    let x ← operand expr l
    let y ← regOrMem expr r
    let note ← remark "generic: " n
    return (combine? op res x.result y.result).map fun tail =>
      ⟨note :: x.code ++ y.code ++ tail, res⟩
  | _ => return none

/-- Right operand into a register, then the operation with the left one. -/
def tileCommutative (n : Node) (op : Op) (l r : Node) : Selection (Option (Tile Reg)) := do
  if op.isCommutative then
    let res ← fresh
    let y ← expr r
    let x ← regOrMem expr l
    let note ← remark "commutative: " n
    return (combine? op res (.reg y.result) x.result).map fun tail =>
      ⟨note :: y.code ++ x.code ++ tail, res⟩
  else return none

def tileCompare (n : Node) (op : Op) (l r : Node) : Selection (Option (Tile Reg)) := do
  match cond? op with
  | some c =>
    let res ← fresh
    let x ← expr l
    let y ← expr r
    let note ← remark "compare: " n
    return some ⟨note :: x.code ++ y.code ++
      [.cmp (.reg x.result) (.reg y.result), .set c .rax, .copy res .rax], res⟩
  | none => return none

def tileLea (n : Node) : Selection (Option (Tile Reg)) := do
  let res ← fresh
  match ← address? expr n with
  | some m =>
    let note ← remark "lea: " n
    return some ⟨note :: m.code ++ [.lea res m.result], res⟩
  | none => return none

def tileImul3 (n : Node) (op : Op) (l r : Node) : Selection (Option (Tile Reg)) := do
  match op, rightImm? r with
  | .mul, some c =>
    let x ← regOrMem expr l
    let res ← fresh
    let note ← remark "imul3: " n
    return some ⟨note :: x.code ++ [.imul3 res x.result c], res⟩
  | _, _ => return none

def tileShl (n : Node) (op : Op) (l r : Node) : Selection (Option (Tile Reg)) := do
  match op, r with
  | .mul, .const _ c =>
    match exponent? c with
    | some k =>
      let res ← fresh
      let x ← operand expr l
      let note ← remark "shl: " n
      return some ⟨note :: x.code ++
        [.mov (.reg res) x.result, .shl (.reg res) (Int64.ofNat k)], res⟩
    | none => return none
  | _, _ => return none

def tileNode : Node → Selection (Tile Reg)
  | .const _ v => do
    let r ← fresh
    return ⟨[.load r v], r⟩
  | .name _ n => do
    let r ← fresh
    return ⟨[.lea r (.atSymbol n)], r⟩
  | .temp _ n => return ⟨[], .ofName n⟩
  | .mem id a => do
    let m ← memory expr a
    let r ← fresh
    let note ← remark [] (.mem id a)
    return ⟨note :: m.code ++ [.mov (.reg r) (.mem m.result)], r⟩
  | .binary id op l r => do
    let n := Node.binary id op l r
    let a ← tileGeneric expr n op l r
    let b ← tileCommutative expr n op l r
    let c ← tileCompare expr n op l r
    let d ← tileLea expr n
    let e ← tileImul3 expr n op l r
    let f ← tileShl expr n op l r
    match [b, c, d, e, f].foldl Tile.cheaper a with
    | some best => return best
    | none => throw (.untiled n.expr.describe?)
  | .absent => throw .emptyExpr

end

/-- A node's tile, from the memo if it is there. -/
def remembered (n : Node) (work : Selection (Tile Reg)) : Selection (Tile Reg) := do
  match n.id? with
  | none =>
    countMiss
    work
  | some id =>
    match (← get).exprs[id]? with
    | some t => return t
    | none =>
      countMiss
      let t ← work
      modify fun memo => { memo with exprs := memo.exprs.insert id t }
      return t

/-- The tile of a node at most `depth` places high. -/
def coverWithin : (depth : Nat) → Node → Selection (Tile Reg)
  | 0, _ => throw .emptyExpr
  | depth + 1, n => remembered n (tileNode (coverWithin depth) n)

def cover (n : Node) : Selection (Tile Reg) := coverWithin n.height n

/-- The node as the address of a memory operand, if it has such a form. -/
def coverAddress? (n : Node) : Selection (Option (Tile Mem)) :=
  address? (coverWithin n.height) n

end X64Backend.Select
