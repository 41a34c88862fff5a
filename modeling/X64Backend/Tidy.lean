import X64Backend.Dataflow.Graph

/-! # Tidying control flow

Adjacent labels are made one; code that cannot be reached, jumps to the next line
and labels without jumps go. The four steps are repeated until none changes
anything.
-/

namespace X64Backend.Tidy

open Asm Dataflow

def dropComments (code : List Instr) : List Instr :=
  code.filter fun
    | .comment _ => false
    | _ => true

/-- Labels that stand right before another one, and that one. -/
def nextLabels : List Instr → Std.TreeMap Name Name → Std.TreeMap Name Name
  | .label a :: .label b :: rest, table => nextLabels (.label b :: rest) (table.insert a b)
  | _ :: rest, table => nextLabels rest table
  | [], table => table

/-- The last of a row of adjacent labels. Rows without repetition are no longer than
the table; a row that goes on longer has no end. -/
def lastLabel (next : Std.TreeMap Name Name) : (fuel : Nat) → Name → Except Defect Name
  | 0, l => .error (.circularLabels l)
  | fuel + 1, l =>
    match next[l]? with
    | some n => lastLabel next fuel n
    | none => .ok l

/-- What becomes of an instruction: of each row of labels the last is kept, and jumps go
there. -/
def coalesceInstr (next : Std.TreeMap Name Name) : Instr → Except Defect (Option Instr)
  | .label l => .ok (if next.contains l then none else some (.label l))
  | .jump cond target => do return some (.jump cond (← lastLabel next (next.size + 1) target))
  | x => .ok (some x)

/-- Keeps of each row of labels the last, and sends jumps there. -/
def coalesceLabels (code : List Instr) : Except Defect (List Instr × Bool) := do
  let next := nextLabels code ∅
  if next.isEmpty then return (code, false)
  let kept ← code.mapM (coalesceInstr next)
  return (kept.filterMap id, true)

/-- The instructions at positions in a set. -/
def atPositions (code : List Instr) (keep : KeySet) : List Instr :=
  (code.zipIdx.filter fun (_, i) => keep.contains i).map Prod.fst

/-- Drops what cannot be reached from the first instruction. -/
def dropUnreachable (code : List Instr) : Except Defect (List Instr × Bool) := do
  if code.isEmpty then return (code, false)
  let kept := atPositions code (reachable (← successors code))
  return (kept, kept.length != code.length)

/-- Whether an instruction jumps to the label right behind it. -/
def jumpsTo : Instr → Option Instr → Bool
  | .jump _ target, some (.label l) => l == target
  | _, _ => false

def withoutIdleJumps : List Instr → List Instr
  | [] => []
  | x :: rest =>
    if jumpsTo x rest.head? then withoutIdleJumps rest else x :: withoutIdleJumps rest

def target? : Instr → Option Name
  | .jump _ target => some target
  | _ => none

def withoutIdleLabels (code : List Instr) : List Instr :=
  let targets := code.filterMap target?
  code.filter fun
    | .label l => targets.contains l
    | _ => true

/-- The four steps one after another, and whether any of them changed the code. -/
def round (code : List Instr) : Except Defect (List Instr × Bool) := do
  let (a, coalesced) ← coalesceLabels code
  let (b, dropped) ← dropUnreachable a
  let c := withoutIdleLabels (withoutIdleJumps b)
  return (c, coalesced || dropped || c.length != b.length)

/-- Rounds until one changes nothing. A round that changes something shortens the code. -/
def rounds : (fuel : Nat) → List Instr → Except Defect (List Instr)
  | 0, code => .ok code
  | fuel + 1, code => do
    let (next, changed) ← round code
    if changed then rounds fuel next else return next

/-- The tidy code, with comments dropped first if asked for. -/
def tidy (removeComments : Bool) (code : List Instr) : Except Defect (List Instr) :=
  let code := if removeComments then dropComments code else code
  rounds (code.length + 1) code

end X64Backend.Tidy
