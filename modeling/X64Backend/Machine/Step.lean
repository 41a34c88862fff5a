import X64Backend.Machine.Builtin

/-! # Execution

One instruction at a time, then as many as the step limit allows, then whole calls
with arguments in registers and on the stack.
-/

namespace X64Backend.Machine

open Asm

namespace Image

def goto (img : Image) (s : State) (target : Name) : Outcome :=
  match img.labels[target]? with
  | some i => .ok { s with ip := i }
  | none => .error (.unknownLabel target, s)

/-- Replaces `dst` by a function of its value and that of `src`. -/
def update (img : Image) (s : State) (dst src : Operand) (f : Int64 → Int64 → Option Int64) :
    Outcome :=
  Outcome.use s (img.value s dst) fun d =>
    Outcome.use s (img.value s src) fun v =>
      match f d v with
      | some r => Outcome.orElse s (img.assign s dst r)
      | none => .error (.meaninglessOp, s)

/-- Pushes the return address and goes to a position. -/
def enter (s : State) (position : Int) : Outcome := do
  let s ← s.push (Int64.ofInt s.ip * 8)
  return { s with ip := position }

/-- A call. A symbol names a built-in function or a label; any other operand holds an
address in code. -/
def call (img : Image) (s : State) (target : Operand) : Outcome :=
  match target with
  | .const (.sym n) =>
    match Builtin.ofName? n, img.labels[n]? with
    | some b, _ => b.run s
    | none, some i => enter s i
    | none, none => .error (.unknownLabel n, s)
  | _ =>
    Outcome.use s (img.value s target) fun v =>
      if v % 8 ≠ 0 || v < 0 || (img.code.size : Int) ≤ (v / 8).toInt then .error (.badTarget v, s)
      else enter s (v / 8).toInt

/-- Executes one instruction in a state that already stands behind it. -/
def exec (img : Image) (s : State) : Instr → Outcome
  | .movAbs dst v => .ok (s.set dst v)
  | .mov dst src =>
    Outcome.use s (img.value s src) fun v => Outcome.orElse s (img.assign s dst v)
  | .lea dst src => Outcome.use s (img.address s src) fun a => .ok (s.set dst a)
  | .cmp l r =>
    Outcome.use { s with left := 0 } (img.value s l) fun a =>
      Outcome.use { s with left := a, right := 0 } (img.value s r) fun b =>
        .ok { s with left := a, right := b }
  | .set cond dst =>
    let s := s.set dst 0
    match cond.holds s.left s.right with
    | .ok true => .ok (s.set dst 1)
    | .ok false => .ok s
    | .error d => .error (.defect d, s)
  | .jump cond target =>
    match cond.holds s.left s.right with
    | .ok true => img.goto s target
    | .ok false => .ok s
    | .error d => .error (.defect d, s)
  | .call target => img.call s target
  | .ret => Outcome.use s s.pop fun (v, s) => .ok { s with ip := (v / 8).toInt }
  | .arith op dst src => img.update s dst src op.result?
  | .imul dst src => img.update s (.reg dst) src fun d v => some (d * v)
  | .imul3 dst src factor => Outcome.use s (img.value s src) fun v => .ok (s.set dst (v * factor))
  | .cqo => .ok (s.set .rdx (if s.get .rax < 0 then -1 else 0))
  | .idiv src =>
    Outcome.use s (img.value s src) fun v =>
      if v = 0 then .error (.divisionByZero, s)
      else
        let a := s.get .rax
        .ok ((s.set .rax (a / v)).set .rdx (a % v))
  | .neg dst => img.update s dst (.imm 0) fun d _ => some (-d)
  | .shl dst count => img.update s dst (.imm count) fun d v => some (d <<< (v &&& 63))
  | .push src => Outcome.use s (img.value s src) fun v => s.push v
  | .popRbp => Outcome.use s s.pop fun (v, s) => .ok (s.set .rbp v)
  | .label _ | .comment _ => .ok s
  | .absent => .error (.emptyInstr, s)

end Image

structure Failure where
  trap : Trap
  site : Option (Int × Instr)

/-- How runs are bounded: a number of steps, zero for no bound, and whether they were
cancelled from outside, which is noticed every 65536 steps. -/
structure Limits where
  maxSteps : Int64
  cancelled : Bool

def defaultMaxSteps : Int64 := 10000000

/-- What stops a run before its next instruction, if anything does. -/
def Limits.stop? (limits : Limits) (img : Image) (s : State) : Option Trap :=
  if limits.maxSteps ≠ 0 && limits.maxSteps.toInt ≤ s.steps then some (.stepLimit s.steps)
  else if limits.cancelled && s.steps % 65536 = 0 then some .cancelled
  else if (img.code.size : Int) ≤ s.ip then some (.outOfCode s.ip)
  else none

def Image.step (img : Image) (s : State) : Except (Failure × State) State :=
  let x := img.code.getD s.ip.toNat .absent
  let site := s.ip
  match img.exec { s with ip := s.ip + 1, steps := s.steps + 1 } x with
  | .ok s' => .ok s'
  | .error (t, s') => .error (⟨t, some (site, x)⟩, s')

/-- Executes instructions until the position is negative or something stops the run.
Fuel that runs out counts as the step limit. -/
def Image.run (img : Image) (limits : Limits) : (fuel : Nat) → State → Option Failure × State
  | 0, s => (some ⟨.stepLimit s.steps, none⟩, s)
  | fuel + 1, s =>
    if s.ip < 0 then (none, s)
    else match limits.stop? img s with
      | some t => (some ⟨t, none⟩, s)
      | none =>
        match img.step s with
        | .ok s' => img.run limits fuel s'
        | .error (failure, s') => (some failure, s')

/-- Fuel that no run uses up: two more than the steps left, or two more than the
greatest bound if there is none. -/
def Limits.fuel (limits : Limits) (s : State) : Nat :=
  if limits.maxSteps = 0 then 0x8000000000000001
  else limits.maxSteps.toInt.toNat - s.steps + 2

structure Result where
  rax : Int64
  output : Bytes
  steps : Nat
  deriving DecidableEq

/-- How a call ended. A defect leaves no result. -/
inductive Report
  | finished (result : Result)
  | failed (kind : TrapKind) (message : Bytes) (result : Result)
  | broken (defect : Defect)

/-- The report of a failure. The text of the instruction is part of the message, so
an instruction without text is a defect of its own. -/
def Failure.report (failure : Failure) (result : Result) : Report :=
  match failure.trap, failure.site with
  | .defect d, _ => .broken d
  | t, none => .failed t.kind t.message result
  | t, some (ip, x) =>
    match x.text with
    | .ok text =>
      .failed t.kind
        (Bytes.messageChain ["ip " ++ Bytes.ofInt ip ++ ": " ++ text, t.message]) result
    | .error d => .broken d

/-- Passes arguments: the first in registers while there are any, the others pushed
from the last on. No register is set if a word cannot be pushed. -/
def State.passArgs (s : State) (args : List Int64) : Outcome := do
  let s ← (args.drop MachineReg.arguments.length).reverse.foldlM State.push s
  return (MachineReg.arguments.zip args).foldl (fun s (r, v) => s.set (.machine r) v) s

/-- Keeps the stack aligned to sixteen bytes when an odd number of arguments goes there. -/
def State.alignStack (s : State) (args : List Int64) : State :=
  if (args.length - MachineReg.arguments.length) % 2 = 0 then s
  else s.set .rsp (s.get .rsp - 8)

def State.result (s : State) : Result :=
  { rax := s.get .rax, output := s.output.toList, steps := s.steps }

def Result.zero : Result := { rax := 0, output := [], steps := 0 }

/-- Calls a function with arguments and runs until it returns. -/
def Image.callFunction (img : Image) (limits : Limits) (entry : Name) (args : List Int64)
    (s : State) : Report × State :=
  match img.labels[entry]? with
  | none => ((Failure.mk (.unknownEntry entry) none).report .zero, s)
  | some i =>
    match (do ((← (s.alignStack args).passArgs args).push exitAddress) : Outcome) with
    | .error (t, s) => ((Failure.mk t none).report .zero, s)
    | .ok s =>
      let s := { s with ip := i }
      match img.run limits (limits.fuel s) s with
      | (none, s) => (.finished s.result, s)
      | (some failure, s) => (failure.report s.result, s)

end X64Backend.Machine
