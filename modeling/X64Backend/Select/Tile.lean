import Std.Data.TreeMap
import X64Backend.Asm.Instr
import X64Backend.Code.Show
import X64Backend.Select.Node

/-! # Tiles

A tile is code that computes an operand. Tiles compete by cost, a weighted count of
instructions. Selection issues abstract registers as it goes and remembers what it
made of each node; both are kept when it stops at a defect.
-/

namespace X64Backend.Select

open Asm

/-- The weight of an instruction. Comments and labels weigh nothing, a product as much
as three others. -/
def weight : Instr → Nat
  | .comment _ | .label _ => 0
  | .imul _ _ | .imul3 _ _ _ => 3
  | _ => 1

def cost (code : List Instr) : Nat := code.foldr (fun x rest => weight x + rest) 0

/-- Code and the operand it computes. -/
structure Tile (α : Type) where
  code : List Instr
  result : α

namespace Tile

def cost {α : Type} (t : Tile α) : Nat := Select.cost t.code

def map {α β : Type} (f : α → β) (t : Tile α) : Tile β := ⟨t.code, f t.result⟩

/-- The cheaper of two tiles, the first of equals. -/
def cheaper {α : Type} : Option (Tile α) → Option (Tile α) → Option (Tile α)
  | none, b => b
  | some a, none => some a
  | some a, some b => if a.cost ≤ b.cost then some a else some b

end Tile

/-- What selection remembers: registers issued, nodes it did the work for, and what it
made of them. -/
structure Memo where
  supply : Supply
  misses : Nat
  exprs : Std.TreeMap Nat (Tile Reg)
  stmts : Std.TreeMap Nat (List Instr)

def Memo.empty : Memo := { supply := ⟨0⟩, misses := 0, exprs := ∅, stmts := ∅ }

/-- Work of selection that ends with an `α` or a defect, and a memo either way. -/
abbrev Selection (α : Type) := ExceptT Defect (StateM Memo) α

def fresh : Selection Reg := do
  let memo ← get
  let (r, supply) := memo.supply.next
  set { memo with supply }
  return r

def countMiss : Selection Unit := modify fun memo => { memo with misses := memo.misses + 1 }

def described (text? : Option Bytes) : Selection Bytes :=
  match text? with
  | some text => pure text
  | none => throw .emptyPlace

/-- A comment that describes a node behind a heading. -/
def remark (heading : Bytes) (n : Node) : Selection Instr := do
  return .comment (heading ++ (← described n.expr.describe?))

end X64Backend.Select
