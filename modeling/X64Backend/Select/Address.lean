import X64Backend.Select.Tile

/-! # Addresses

Expressions folded into memory operands of the form base plus scaled index plus
displacement. Each form is tried where the shape of the expression allows it, and
the cheapest wins. The functions here take `expr`, which computes a node into a
register, and call it only on nodes below the one they are given.
-/

namespace X64Backend.Select

open Asm Code

/-- A scaled register as part of an address. -/
abbrev Scaled := Reg × Int64

/-- The displacement that an operation with a constant adds to its left operand, if it
and the constant fit an immediate. -/
def displacement? : Op → Node → Option Int64
  | .add, .const _ c => if isImm32 c then some c else none
  | .sub, .const _ c => if isImm32 (-c) && isImm32 c then some (-c) else none
  | _, _ => none

/-- The scale that a constant gives to an index. -/
def scale? : Node → Option Int64
  | .const _ c => if c = 1 || c = 2 || c = 4 || c = 8 then some c else none
  | _ => none

section

variable (expr : Node → Selection (Tile Reg))

/-- A temporary, or a product with a scale. -/
def scaled? : Node → Selection (Option (Tile Scaled))
  | .temp _ n => return some ⟨[], (.ofName n, 1)⟩
  | .binary _ .mul l r =>
    match scale? r with
    | some s => return some ((← expr l).map fun reg => (reg, s))
    | none => return none
  | _ => return none

def baseDisp? (op : Op) (l r : Node) : Selection (Option (Tile Mem)) := do
  match displacement? op r with
  | some d => return some ((← expr l).map fun reg => .offset reg d)
  | none => return none

def indexDisp? (op : Op) (l r : Node) : Selection (Option (Tile Mem)) := do
  match displacement? op r with
  | some d => return (← scaled? expr l).map (Tile.map fun s => ⟨none, some s, .imm d⟩)
  | none => return none

/-- A base plus a scaled index, where the index is already there. -/
def withBase (index : Tile Scaled) (base : Node) : Selection (Tile Mem) := do
  let b ← expr base
  return ⟨index.code ++ b.code, ⟨Mem.baseOf b.result, some index.result, .imm 0⟩⟩

/-- A base plus a scaled index in either order of the operands. -/
def baseIndex? (op : Op) (l r : Node) : Selection (Option (Tile Mem)) := do
  match op with
  | .add =>
    let first ← match ← scaled? expr r with
      | some s => some <$> withBase expr s l
      | none => pure none
    match ← scaled? expr l with
    | some s => return Tile.cheaper first (some (← withBase expr s r))
    | none => return first
  | _ => return none

/-- A scaled index `x` plus a base with a displacement. -/
def indexBaseDisp? (x y : Node) : Selection (Option (Tile Mem)) := do
  match y with
  | .binary _ op l r =>
    match ← scaled? expr x with
    | some s =>
      match ← baseDisp? expr op l r with
      | some bd => return some ⟨s.code ++ bd.code, { bd.result with index := some s.result }⟩
      | none => return none
    | none => return none
  | _ => return none

/-- A base `x` plus a scaled index with a displacement. -/
def baseIndexDisp? (x y : Node) : Selection (Option (Tile Mem)) := do
  match y with
  | .binary _ op l r =>
    match ← indexDisp? expr op l r with
    | some i =>
      let b ← expr x
      return some ⟨i.code ++ b.code, { i.result with base := Mem.baseOf b.result }⟩
    | none => return none
  | _ => return none

/-- The constant that is added on the right, if it fits an immediate. -/
def rightImm? : Node → Option Int64
  | .const _ c => if isImm32 c then some c else none
  | _ => none

/-- A base, a scaled index and a displacement. A small constant on the right must be the
displacement; otherwise the displacement stands in one of the operands. -/
def complete? (op : Op) (l r : Node) : Selection (Option (Tile Mem)) := do
  match op with
  | .add =>
    match rightImm? r with
    | some c =>
      match l with
      | .binary _ lop ll lr =>
        return (← baseIndex? expr lop ll lr).map (Tile.map fun m => { m with disp := .imm c })
      | _ => return none
    | none =>
      let a ← indexBaseDisp? expr l r
      let b ← baseIndexDisp? expr l r
      let c ← indexBaseDisp? expr r l
      let d ← baseIndexDisp? expr r l
      return Tile.cheaper (Tile.cheaper (Tile.cheaper a b) c) d
  | _ => return none

/-- The expression as the address of a memory operand, if it has such a form. -/
def address? : Node → Selection (Option (Tile Mem))
  | .const _ c => return if isImm32 c then some ⟨[], ⟨none, none, .imm c⟩⟩ else none
  | .name _ n =>
    return some ⟨[.comment ("force named address with rip: " ++ n)], .atSymbol n⟩
  | .temp _ n => return some ⟨[], .atReg (.ofName n)⟩
  | .mem _ _ | .absent => return none
  | .binary id op l r => do
    let a ← complete? expr op l r
    let b ← scaled? expr (.binary id op l r)
    let c ← baseDisp? expr op l r
    let d ← baseIndex? expr op l r
    let e ← indexDisp? expr op l r
    let index := b.map (Tile.map fun s => (⟨none, some s, .imm 0⟩ : Mem))
    return Tile.cheaper (Tile.cheaper (Tile.cheaper (Tile.cheaper a index) c) d) e

end

end X64Backend.Select
