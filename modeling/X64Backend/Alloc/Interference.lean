import X64Backend.Dataflow.Liveness

/-! # Interference

Registers that hold different values at one time must not share a machine register.
A register that is written interferes with all that are live behind the write; a
copy does not make its two registers interfere.
-/

namespace X64Backend.Alloc

open Asm Dataflow

/-- A copy from one register to another, by number. -/
structure Copy where
  dst : Nat
  src : Nat
  deriving DecidableEq, Inhabited

/-- The registers of code by number: for each the registers it interferes with, the
copies it takes part in and how often it is read or written; and the copies. -/
structure Interference where
  edges : Array KeySet
  copyLists : Array KeySet
  weights : Array Nat
  copies : Array Copy

namespace Interference

def blank (count : Nat) : Interference where
  edges := Array.replicate count .empty
  copyLists := Array.replicate count .empty
  weights := Array.replicate count 0
  copies := #[]

def size (g : Interference) : Nat := g.edges.size

end Interference

/-- Two different registers joined. -/
def joined (edges : Array KeySet) (u v : Nat) : Array KeySet :=
  if u = v then edges else (edges.modify u (·.insert v)).modify v (·.insert u)

/-- A register joined with all of a set. -/
def joinedAll (edges : Array KeySet) (vs : KeySet) (d : Nat) : Array KeySet :=
  vs.toList.foldl (fun edges v => joined edges v d) edges

namespace Interference

/-- Adds a copy. Equal copies count once. -/
def addCopy (g : Interference) (c : Copy) : Interference :=
  let id := g.copies.idxOf c
  { g with
    copies := if id < g.copies.size then g.copies else g.copies.push c
    copyLists := (g.copyLists.modify c.dst (·.insert id)).modify c.src (·.insert id) }

def addWeight (g : Interference) (n : Nat) : Interference :=
  { g with weights := g.weights.modify n (· + 1) }

end Interference

/-- The copy that an instruction makes. -/
def copy? (vars : Vars) : Instr → Option Copy
  | .mov (.reg d) (.reg s) => do return { dst := ← vars.id? d, src := ← vars.id? s }
  | _ => none

/-- Adds what an instruction makes interfere. -/
def Interference.addPoint (g : Interference) (vars : Vars) (x : Instr) (p : Point)
    (behind : KeySet) : Interference :=
  let (g, live) := match copy? vars x with
    | some c => (g.addCopy c, behind.diff p.uses)
    | none => (g, behind)
  let live := live.union p.defs
  let g := { g with edges := p.defs.toList.foldl (fun edges d => joinedAll edges live d) g.edges }
  p.defs.toList.foldl addWeight (p.uses.toList.foldl addWeight g)

/-- The interference of code with known liveness. The last instruction comes first, so
that its copies do. -/
def interference (code : List Instr) (live : Liveness) : Interference :=
  let points := live.points.toList.zip live.behind.toList
  (code.zip points).foldr (fun (x, p, behind) g => g.addPoint live.vars x p behind)
    (.blank live.vars.size)

end X64Backend.Alloc
