import X64Backend.Asm.Labels
import X64Backend.BitSet

/-! # Control flow

The positions that control can reach from each instruction in one step, and from
which each is reached.
-/

namespace X64Backend.Dataflow

open Asm

def fallThrough (size i : Nat) : List Nat := if i + 1 < size then [i + 1] else []

/-- The successors of the instruction at `i`. A jump goes to its target first. -/
def successorsAt (labels : LabelTable) (size i : Nat) : Instr → Except Defect (List Nat)
  | .jump cond target =>
    match labels[target]? with
    | some t => .ok (t :: if cond.isConditional then fallThrough size i else [])
    | none => .error (.undefinedLabel target)
  | .ret => .ok []
  | _ => .ok (fallThrough size i)

def successors (code : List Instr) : Except Defect (Array (List Nat)) := do
  let labels := labelTable code
  let lists ← code.zipIdx.mapM fun (x, i) => successorsAt labels code.length i x
  return lists.toArray

/-- Adds a position to the predecessors of each of its successors. -/
def addPredecessor (preds : Array (List Nat)) (i : Nat) (succs : List Nat) : Array (List Nat) :=
  succs.foldl (fun preds s => preds.modify s (· ++ [i])) preds

/-- The predecessors of every instruction, as often as it is their successor. -/
def predecessors (succs : Array (List Nat)) : Array (List Nat) :=
  succs.toList.zipIdx.foldl (fun preds (ss, i) => addPredecessor preds i ss)
    (Array.replicate succs.size [])

/-- Marks the successors of a position that were not seen yet, and stacks them. -/
def visit (found : List Nat × KeySet) (succs : List Nat) : List Nat × KeySet :=
  succs.foldl (fun (stack, seen) s =>
    if seen.contains s then (stack, seen) else (s :: stack, seen.insert s)) found

/-- The positions seen and all that can be reached from the stack. Each position is
stacked at most once, so as much fuel as there are positions is enough. -/
def reachFrom (succs : Array (List Nat)) : (fuel : Nat) → List Nat × KeySet → KeySet
  | 0, (_, seen) => seen
  | _, ([], seen) => seen
  | fuel + 1, (i :: stack, seen) => reachFrom succs fuel (visit (stack, seen) (succs.getD i []))

def reachable (succs : Array (List Nat)) : KeySet :=
  reachFrom succs (succs.size + 1) ([0], KeySet.empty.insert 0)

end X64Backend.Dataflow
