import X64Backend.Dataflow.Access
import X64Backend.Dataflow.Graph
import X64Backend.Dataflow.Vars

/-! # Live registers

A register is live behind an instruction if its value may still be read. The sets
are found by sweeping backwards over the code until nothing changes; they are the
least that satisfy the equations of the sweep.
-/

namespace X64Backend.Dataflow

open Asm

/-- What is known of an instruction before the sweeps: its successors, and the numbers
of the registers it reads and writes. -/
structure Point where
  succs : List Nat
  uses : KeySet
  defs : KeySet

/-- The live registers before and behind every instruction. -/
structure Liveness where
  vars : Vars
  points : Array Point
  before : Array KeySet
  behind : Array KeySet

def Point.liveBehind (p : Point) (before : Array KeySet) : KeySet :=
  p.succs.foldl (fun live s => live.union (before.getD s .empty)) .empty

def Point.liveBefore (p : Point) (before : Array KeySet) : KeySet :=
  ((p.liveBehind before).diff p.defs).union p.uses

def sweep (points : Array Point) (before : Array KeySet) : Array KeySet :=
  points.toList.zipIdx.foldr (fun (p, i) before => before.setIfInBounds i (p.liveBefore before))
    before

/-- Sweeps until nothing changes. A sweep that changes something makes a register live
at a point where it was not, so fuel for every such pair is enough. -/
def settle (points : Array Point) : (fuel : Nat) → Array KeySet → Array KeySet
  | 0, before => before
  | fuel + 1, before =>
    let next := sweep points before
    if next = before then before else settle points fuel next

def keysOf (vars : Vars) (rs : List Reg) : KeySet := KeySet.ofList (rs.filterMap vars.id?)

def pointsOf (vars : Vars) (accesses : List (List Access)) (succs : Array (List Nat)) :
    Array Point :=
  let point (a : List Access) (ss : List Nat) : Point :=
    { succs := ss
      uses := keysOf vars (a.filterMap Access.used?)
      defs := keysOf vars (a.filterMap Access.defined?) }
  (List.zipWith point accesses succs.toList).toArray

def analyze (code : List Instr) (returns : Bool) : Except Defect Liveness := do
  let accesses ← allAccesses returns code
  let succs ← successors code
  let vars := Vars.machine.addAll (accesses.flatten.map Access.reg)
  let points := pointsOf vars accesses succs
  let before := settle points (points.size * vars.size + 1) (Array.replicate points.size .empty)
  return { vars, points, before, behind := points.map fun p => p.liveBehind before }

end X64Backend.Dataflow
