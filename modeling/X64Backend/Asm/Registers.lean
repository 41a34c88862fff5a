import X64Backend.Asm.Text

/-! # Registers of an instruction

The registers that an instruction names, in the order of its operands, and the
instruction with other registers or other words of memory in their places.
-/

namespace X64Backend.Asm

/-- The registers that a word's address names, base first. -/
def Mem.namedRegs (m : Mem) : List Reg :=
  m.base.toList ++ (m.index.map Prod.fst).toList

/-- The word with every register of its address replaced. -/
def Mem.mapRegs (f : Reg → Reg) (m : Mem) : Mem :=
  { base := m.base.map f, index := m.index.map fun (r, scale) => (f r, scale), disp := m.disp }

namespace Operand

def namedRegs : Operand → List Reg
  | .reg r => [r]
  | .mem m => m.namedRegs
  | .const _ | .absent => []

def mapRegs (f : Reg → Reg) : Operand → Operand
  | .reg r => .reg (f r)
  | .mem m => .mem (m.mapRegs f)
  | .const c => .const c
  | .absent => .absent

def mapMem (f : Mem → Except Defect Mem) : Operand → Except Defect Operand
  | .mem m => return .mem (← f m)
  | .reg r => .ok (.reg r)
  | .const c => .ok (.const c)
  | .absent => .ok .absent

end Operand

namespace Instr

/-- The registers that an instruction names. Registers that it works on without naming
them are not among these. -/
def namedRegs : Instr → List Reg
  | .movAbs dst _ => [dst]
  | .mov dst src => dst.namedRegs ++ src.namedRegs
  | .lea dst src => dst :: src.namedRegs
  | .cmp l r => l.namedRegs ++ r.namedRegs
  | .set _ dst => [dst]
  | .call target => target.namedRegs
  | .arith _ dst src => dst.namedRegs ++ src.namedRegs
  | .imul dst src => dst :: src.namedRegs
  | .imul3 dst src _ => dst :: src.namedRegs
  | .idiv src => src.namedRegs
  | .neg dst => dst.namedRegs
  | .shl dst _ => dst.namedRegs
  | .push src => src.namedRegs
  | .jump _ _ | .ret | .cqo | .popRbp | .label _ | .comment _ | .absent => []

def mapRegs (f : Reg → Reg) : Instr → Instr
  | .movAbs dst value => .movAbs (f dst) value
  | .mov dst src => .mov (dst.mapRegs f) (src.mapRegs f)
  | .lea dst src => .lea (f dst) (src.mapRegs f)
  | .cmp l r => .cmp (l.mapRegs f) (r.mapRegs f)
  | .set cond dst => .set cond (f dst)
  | .call target => .call (target.mapRegs f)
  | .arith op dst src => .arith op (dst.mapRegs f) (src.mapRegs f)
  | .imul dst src => .imul (f dst) (src.mapRegs f)
  | .imul3 dst src factor => .imul3 (f dst) (src.mapRegs f) factor
  | .idiv src => .idiv (src.mapRegs f)
  | .neg dst => .neg (dst.mapRegs f)
  | .shl dst count => .shl (dst.mapRegs f) count
  | .push src => .push (src.mapRegs f)
  | .jump cond target => .jump cond target
  | .ret => .ret
  | .cqo => .cqo
  | .popRbp => .popRbp
  | .label l => .label l
  | .comment text => .comment text
  | .absent => .absent

def mapMem (f : Mem → Except Defect Mem) : Instr → Except Defect Instr
  | .mov dst src => return .mov (← dst.mapMem f) (← src.mapMem f)
  | .lea dst src => return .lea dst (← f src)
  | .cmp l r => return .cmp (← l.mapMem f) (← r.mapMem f)
  | .call target => return .call (← target.mapMem f)
  | .arith op dst src => return .arith op (← dst.mapMem f) (← src.mapMem f)
  | .imul dst src => return .imul dst (← src.mapMem f)
  | .imul3 dst src factor => return .imul3 dst (← src.mapMem f) factor
  | .idiv src => return .idiv (← src.mapMem f)
  | .neg dst => return .neg (← dst.mapMem f)
  | .shl dst count => return .shl (← dst.mapMem f) count
  | .push src => return .push (← src.mapMem f)
  | x => .ok x

/-- Checks that an instruction names registers of the machine only. The first that is
none is reported, with the text of the instruction if it has one. -/
def checkRegisters (x : Instr) : Except Defect Unit :=
  match x.namedRegs.find? fun r => !r.isMachine && r != .rip with
  | none => .ok ()
  | some r => do throw (.abstractRegister r.name (← x.text))

end Instr

end X64Backend.Asm
