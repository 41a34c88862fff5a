import X64Backend.Alloc.Stack
import X64Backend.Code.Reader
import X64Backend.Select.Body
import X64Backend.Tidy

/-! # Programs

A module becomes an assembly program function by function: arguments are moved into
their temporaries, instructions are selected for the body, registers are allocated,
and the frame is put around. Control flow is tidied before and after allocation.
-/

namespace X64Backend

open Asm

structure Config where
  removeComments : Bool
  /-- The name of the allocator; none stands for the default. -/
  allocator : Bytes
  deriving DecidableEq, Inhabited

inductive Allocator
  | coalescing
  | stack
  deriving DecidableEq, Inhabited

def Allocator.ofName? (n : Bytes) : Option Allocator :=
  if n = [] || n = "irc" then some .coalescing
  else if n = "naive" then some .stack
  else none

namespace Generate

inductive Fault
  | unknownAllocator (name : Bytes)
  | machineName (func temp : Name)
  | reservedName (func temp : Name)
  | defect (d : Defect)
  deriving DecidableEq

def Fault.message? : Fault → Option Bytes
  | .unknownAllocator n => some ("unknown allocator: " ++ Quoted.write n)
  | .machineName f t =>
    some (Bytes.messageChain ["func " ++ f, "temp named as a machine register: " ++ t])
  | .reservedName f t => some (Bytes.messageChain ["func " ++ f, "temp name is reserved: " ++ t])
  | .defect d => d.message?

/-- Checks that a temporary's name is none that code gets elsewhere. -/
def checkTemp (func temp : Name) : Except Fault Unit :=
  match Reg.ofName temp with
  | .machine _ | .rip => .error (.machineName func temp)
  | .abstract n =>
    if Reg.issuedMark.isPrefixOf n || Reg.savedMark.isPrefixOf n then
      .error (.reservedName func temp)
    else .ok ()

/-- Where the `i`-th argument is when a function is entered. -/
def incoming (i : Nat) : Operand :=
  match MachineReg.arguments[i]? with
  | some r => .reg (.machine r)
  | none => .mem (.offset .rbp (16 + 8 * Int64.ofNat (i - MachineReg.arguments.length)))

/-- Moves the arguments of a function into their temporaries. -/
def argumentMoves (args : List Name) : List Instr :=
  args.zipIdx.map fun (a, i) => .mov (.reg (.ofName a)) (incoming i)

def calls (code : List Instr) : Bool :=
  code.any fun
    | .call _ => true
    | _ => false

/-- The slots that a frame is made for. Code that calls others keeps the stack aligned to
two words. -/
def frameSlots (calls : Bool) (slots : Nat) : Nat :=
  if calls && slots % 2 = 1 then slots + 1 else slots

/-- A function's code with its label, prologue and epilogue. A function that neither
calls nor has slots nor arguments on the stack needs no frame. -/
def frame (removeComments : Bool) (func : Name) (argCount slots : Nat) (code : List Instr) :
    List Instr :=
  let calls := calls code
  let framed := calls || slots != 0 || MachineReg.arguments.length < argCount
  let slots := frameSlots calls slots
  let note (what : Bytes) : List Instr :=
    if removeComments then [] else [.comment (func ++ " " ++ what)]
  let enter : List Instr := if framed then [.push (.reg .rbp), .copy .rbp .rsp] else []
  let reserve : List Instr :=
    if slots != 0 then [.arith .sub (.reg .rsp) (.imm (8 * Int64.ofNat slots))] else []
  let leave : List Instr := if framed then [.copy .rsp .rbp, .popRbp] else []
  .label func :: note "prologue starts" ++ enter ++ reserve ++ note "prologue ends" ++ code ++
    note "epilogue starts" ++ leave ++ [.ret] ++ note "epilogue ends"

/-- The instructions selected for a function, tidied, and the supply after them. -/
def selected (removeComments : Bool) (fn : Code.Func Select.NodeStmt) :
    Except Defect (List Instr × Supply) := do
  let (body, memo) := (Select.coverBody fn.name fn.body).run .empty
  let code ← Tidy.tidy removeComments (argumentMoves fn.args ++ (← body))
  return (code, memo.supply)

def allocated (allocator : Allocator) (returns : Bool) (supply : Supply) (code : List Instr) :
    Except Defect Alloc.Allocated :=
  match allocator with
  | .stack => Alloc.allocateOnStack supply code
  | .coalescing => Alloc.allocate supply returns (Alloc.keepCalleeSaved code)

/-- The assembly code of a function whose temporaries are in order. -/
def functionCode (removeComments : Bool) (allocator : Allocator)
    (fn : Code.Func Select.NodeStmt) : Except Defect (List Instr) := do
  let (code, supply) ← selected removeComments fn
  let result ← allocated allocator fn.returns supply code
  let code ← Tidy.tidy removeComments result.code
  return frame removeComments fn.name fn.args.length result.slots code

def function (removeComments : Bool) (allocator : Allocator) (fn : Code.Func Select.NodeStmt) :
    Except Fault (List Instr) := do
  (fn.map Select.NodeStmt.plain).temps.forM (checkTemp fn.name)
  match functionCode removeComments allocator fn with
  | .ok code => return code
  | .error d => throw (.defect d)

end Generate

/-- The assembly program for a module over numbered trees. -/
def generate (config : Config) (m : Code.Module Select.NodeStmt) :
    Except Generate.Fault Program := do
  let some allocator := Allocator.ofName? config.allocator
    | throw (.unknownAllocator config.allocator)
  let codes ← m.funcs.mapM (Generate.function config.removeComments allocator)
  return { globals := m.globals, funcs := m.funcs.map Code.Func.name, code := codes.flatten }

inductive CompileFault
  | read (fault : Code.Reader.Fault)
  | generate (fault : Generate.Fault)

/-- The wording of a fault in a text with a name, unless it is a defect. -/
def CompileFault.message? (file : Bytes) : CompileFault → Option Bytes
  | .read fault => some (Bytes.messageChain ["parse text", fault.message file])
  | .generate (.defect _) => none
  | .generate fault => fault.message?.map fun m => Bytes.messageChain ["generate", m]

def compile (config : Config) (text : Bytes) : Except CompileFault Program := do
  match Code.Module.read text with
  | .error fault => throw (.read fault)
  | .ok m => match generate config (Select.numberModule m) with
    | .error fault => throw (.generate fault)
    | .ok p => return p

end X64Backend
