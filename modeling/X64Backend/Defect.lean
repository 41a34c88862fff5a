import X64Backend.Text.Bytes

/-! # Defects

What can be wrong with code or data made by hand, beyond what the language of the
code can express: empty places, codes outside their tables, jumps to nowhere. A
defect stops the work on that input; most have a wording, and those that say no
more than that a table or a place was missed have none.
-/

namespace X64Backend

/-- A fault in the shape of the input. -/
inductive Defect
  /-- A description was asked of a tree with an empty place. -/
  | emptyPlace
  | emptyOperand
  | emptyInstr
  /-- A condition or operation code has no name. -/
  | namelessCode
  /-- A condition code has no meaning. -/
  | meaninglessCond (code : Int)
  | emptyExpr
  | emptyStmt
  /-- No tile covers an expression; its description, if it has one. -/
  | untiled (description : Option Bytes)
  /-- A jump to a label that is not in the code. -/
  | undefinedLabel (label : Bytes)
  /-- A jump to one of a row of labels that comes back to itself. -/
  | circularLabels (label : Bytes)
  /-- A destination that is neither a register nor memory. -/
  | badDestination
  /-- The destination of a conditional set was spilled. -/
  | spilledSet (register : Bytes)
  /-- A slot operand that belongs to no spilled register. -/
  | unknownSlot (operand : Bytes)
  /-- A register without a machine register in allocated code. -/
  | abstractRegister (register instr : Bytes)
  | uncolored (register : Bytes)
  /-- Allocation did not settle within its rounds. -/
  | unsettled
  | negativeKey (key : Int)
  | unknownVariable
  /-- A string longer than memory can be. -/
  | hugeString
  deriving DecidableEq

def Defect.message? : Defect → Option Bytes
  | .emptyPlace | .namelessCode | .badDestination | .unknownVariable | .hugeString => none
  | .emptyOperand => some "unsupported arg: <nil>"
  | .emptyInstr => some "unsupported instruction: <nil>"
  | .meaninglessCond code => some (Bytes.ofInt code)
  | .emptyExpr => some "unsupported expression: <nil>"
  | .emptyStmt => some "unsupported statement: <nil>"
  | .untiled (some description) => some ("no tiling for " ++ description)
  | .untiled none => some ("no tiling for %!v(PANIC=String method: " ++
      "runtime error: invalid memory address or nil pointer dereference)")
  | .undefinedLabel l => some ("jump to undefined label: " ++ l)
  | .circularLabels l => some ("labels go in a circle: " ++ l)
  | .spilledSet r => some ("set destination is spilled: " ++ r)
  | .unknownSlot m => some ("unknown stack slot: " ++ m)
  | .abstractRegister r x => some ("abstract register after allocation: " ++ r ++ " in " ++ x)
  | .uncolored r => some ("register left uncolored: " ++ r)
  | .unsettled => some "allocation does not settle"
  | .negativeKey key => some (Bytes.ofInt key)

end X64Backend
