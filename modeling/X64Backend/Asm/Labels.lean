import Std.Data.TreeMap
import X64Backend.Asm.Instr

/-! # Labels in code

Where labels stand. Of equal labels the last counts.
-/

namespace X64Backend.Asm

abbrev LabelTable := Std.TreeMap Name Nat

/-- The table with the labels of code that starts at position `i`. -/
def LabelTable.addFrom : Nat → List Instr → LabelTable → LabelTable
  | _, [], table => table
  | i, x :: rest, table =>
    addFrom (i + 1) rest <| match x with
      | .label n => table.insert n i
      | _ => table

def labelTable (code : List Instr) : LabelTable := LabelTable.addFrom 0 code ∅

end X64Backend.Asm
