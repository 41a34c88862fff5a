import X64Backend.Alloc.Coloring
import X64Backend.Alloc.Finish

/-! # Allocation in rounds

A round analyses the code, works the interference graph off and colours it. If
registers had to be spilled the code is changed to keep them in slots and the next
round begins; otherwise the code is finished.
-/

namespace X64Backend.Alloc

open Asm Dataflow

/-- Code over machine registers, the number of slots it needs below the frame pointer,
the rounds it took and the supply of registers after them. -/
structure Allocated where
  code : List Instr
  slots : Nat
  rounds : Nat
  supply : Supply
  deriving DecidableEq, Inhabited

/-- What one round finds out. -/
structure Round where
  vars : Vars
  work : Worklist
  coloring : Coloring

namespace Round

def ofCode (returns : Bool) (code : List Instr) : Except Defect Round := do
  let live ← analyze code returns
  let work := Worklist.final (interference code live)
  return { vars := live.vars, work, coloring := .ofWorklist work }

/-- The spilled registers, in the order in which they were given up. -/
def spilled (r : Round) : List Reg := r.coloring.spilled.reverse.filterMap (r.vars.regs[·]?)

/-- The colours of all registers but the machine's, in the order of their numbers. -/
def colors (r : Round) : Except Defect (List (Name × MachineReg)) :=
  (r.vars.regs.toList.zipIdx.drop Vars.machineCount).mapM fun (reg, n) =>
    match r.coloring.color? r.work n with
    | some c => .ok (reg.name, c)
    | none => .error (.uncolored reg.name)

end Round

/-- Numbers the slots of more registers. Each gets one more than there are registers
with slots, itself not counted. -/
def addSlots (slots : Slots) (rs : List Reg) : Slots × Slots :=
  rs.foldl (fun (all, new) r =>
    (all.insert r.name (all.size + 1), new.insert r.name (all.size + 1))) (slots, ∅)

def rounds (returns : Bool) : (fuel : Nat) → (done : Nat) → Slots → Supply → List Instr →
    Except Defect Allocated
  | 0, _, _, _, _ => .error .unsettled
  | fuel + 1, done, slots, supply, code => do
    let round ← Round.ofCode returns code
    match round.spilled with
    | [] =>
      let colors ← round.colors
      let f : Finish := {
        colors := .ofList colors
        unused := Finish.unusedOf (colors.map Prod.snd)
        slots }
      return { code := ← f.code code, slots := f.kept.length, rounds := done + 1, supply }
    | rs =>
      let (slots, new) := addSlots slots rs
      let (code, supply) ← (Spilling.code new code).run supply
      rounds returns fuel (done + 1) slots supply code

/-- Rounds after which allocation is given up. Code that settles does so much earlier. -/
def roundLimit : Nat := 4096

/-- Machine registers for the abstract registers of a function's code. -/
def allocate (supply : Supply) (returns : Bool) (code : List Instr) : Except Defect Allocated :=
  rounds returns roundLimit 0 ∅ supply code

end X64Backend.Alloc
