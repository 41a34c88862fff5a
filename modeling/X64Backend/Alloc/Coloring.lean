import X64Backend.Alloc.Worklist

/-! # Colouring

Registers come off the stack in the reverse order in which they left the graph. Each
takes the first machine register that none of its coloured neighbours has; those
for which none is left are spilled. Merged registers share their colour.
-/

namespace X64Backend.Alloc

open Asm Dataflow

/-- The machine registers found by number, and the spilled registers, the last first. -/
structure Coloring where
  colors : Array (Option MachineReg)
  spilled : List Nat

namespace Coloring

/-- Machine registers have their own colour. -/
def start (count : Nat) : Coloring where
  colors := ((MachineReg.all.map some ++ List.replicate (count - Vars.machineCount) none)).toArray
  spilled := []

/-- The colours of the neighbours of a register. -/
def taken (c : Coloring) (w : Worklist) (n : Nat) : List MachineReg :=
  (w.edges.getD n .empty).toList.filterMap fun t => c.colors.getD (w.rootOf t) none

/-- Colours a register or spills it. -/
def assign (w : Worklist) (c : Coloring) (n : Nat) : Coloring :=
  let taken := c.taken w n
  match palette.find? fun r => !taken.contains r with
  | some r => { c with colors := c.colors.setIfInBounds n (some r) }
  | none => { c with spilled := n :: c.spilled }

def ofWorklist (w : Worklist) : Coloring := w.stack.foldl (assign w) (start w.edges.size)

/-- The colour of a register or of the one it was merged into. -/
def color? (c : Coloring) (w : Worklist) (n : Nat) : Option MachineReg :=
  c.colors.getD (w.rootOf n) none

end Coloring

end X64Backend.Alloc
