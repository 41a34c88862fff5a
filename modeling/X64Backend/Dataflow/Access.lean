import X64Backend.Asm.Instr

/-! # Register accesses

Which registers an instruction reads and writes, in the order in which they are
met. A call reads the argument registers and writes all that it may change; a
return reads the result register if the function gives a value.
-/

namespace X64Backend.Dataflow

open Asm

/-- A register read or written. -/
inductive Access
  | use (r : Reg)
  | define (r : Reg)
  deriving DecidableEq

namespace Access

def reg : Access → Reg
  | .use r | .define r => r

def used? : Access → Option Reg
  | .use r => some r
  | .define _ => none

def defined? : Access → Option Reg
  | .use _ => none
  | .define r => some r

end Access

def reads : Operand → List Access
  | .reg r => [.use r]
  | .mem m => m.regs.map .use
  | .const _ | .absent => []

def updates : Operand → List Access
  | .reg r => [.use r, .define r]
  | .mem m => m.regs.map .use
  | .const _ | .absent => []

def writes : Operand → List Access
  | .reg r => [.define r]
  | .mem m => m.regs.map .use
  | .const _ | .absent => []

/-- The accesses of an instruction in a function that gives a value or not. -/
def accesses (returns : Bool) : Instr → Except Defect (List Access)
  | .movAbs dst _ => .ok [.define dst]
  | .mov dst src => .ok (writes dst ++ reads src)
  | .lea dst src => .ok (.define dst :: reads (.mem src))
  | .cmp l r => .ok (reads l ++ reads r)
  | .set _ dst => .ok [.define dst]
  | .call target =>
    .ok (reads target ++ MachineReg.arguments.map (fun r => .use (.machine r)) ++
      MachineReg.callerSaved.map fun r => .define (.machine r))
  | .ret => .ok (if returns then [.use .rax] else [])
  | .arith _ dst src => .ok (updates dst ++ reads src)
  | .imul dst src => .ok (updates (.reg dst) ++ reads src)
  | .imul3 dst src _ => .ok (.define dst :: reads src)
  | .cqo => .ok [.use .rax, .define .rdx]
  | .idiv src => .ok (reads src ++ updates (.reg .rax) ++ updates (.reg .rdx))
  | .neg dst => .ok (updates dst)
  | .shl dst _ => .ok (updates dst)
  | .push src => .ok (reads src ++ updates (.reg .rsp))
  | .popRbp => .ok (updates (.reg .rsp) ++ [.define .rbp])
  | .jump _ _ | .label _ | .comment _ => .ok []
  | .absent => .error .emptyInstr

/-- The accesses of every instruction from a position on. The last instruction of a
function that gives a value reads the result register. -/
def allAccesses (returns : Bool) : List Instr → Except Defect (List (List Access))
  | [] => .ok []
  | [x] => do return [(← accesses returns x) ++ if returns then [.use .rax] else []]
  | x :: rest => do
    let a ← accesses returns x
    return a :: (← allAccesses returns rest)

end X64Backend.Dataflow
