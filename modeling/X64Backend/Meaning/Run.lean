import X64Backend.Meaning.Expr

/-! # The meaning of functions

Functions run statement by statement. A frame is a function with the position of its
next statement and its temporaries; calls put frames on a stack. Built-in functions
do what the machine's do.
-/

namespace X64Backend.Meaning

open Code Machine

/-- What functions share: memory, the start of free memory, and what was written. -/
structure World where
  memory : Memory
  heap : Int64
  output : Array UInt8

structure Frame where
  func : SourceFunc
  position : Nat
  temps : Temps

/-- A run: the running function, the frames that wait for it, each with the temporary
for its result, and the world. -/
structure Config where
  frame : Frame
  waiting : List (Frame × Option Name)
  world : World

/-- A run goes on, or ends with the result of its first function. -/
inductive Progress
  | running (c : Config)
  | finished (result : Option Value) (world : World)

/-- The position of a label in a body. Of equal labels the last counts. -/
def labelPosition? (body : List (Stmt Expr)) (l : Name) : Option Nat :=
  (body.zipIdx.reverse.find? fun (s, _) => s == .label l).map Prod.snd

def arity : Builtin → Nat
  | .stringConcat => 2
  | _ => 1

def givesResult : Builtin → Bool
  | .println | .throw => false
  | _ => true

/-- The machine as a built-in function finds it. -/
def World.machine (w : World) (args : List Int64) : State :=
  let regs := (Asm.MachineReg.arguments.zip args).foldl
    (fun rs (r, v) => rs.set (.machine r) v) Registers.zero
  { regs, memory := w.memory, left := 0, right := 0, heap := w.heap, ip := 0, steps := 0,
    output := w.output }

def World.callBuiltin (w : World) (b : Builtin) (args : List Int64) :
    Except Fault (Option Value × World) :=
  if args.length ≠ arity b then .error (.wrongCount b.name)
  else match b.run (w.machine args) with
    | .error (t, _) => .error (.trap t)
    | .ok s =>
      let result := if givesResult b then some (.word (s.get .rax)) else none
      .ok (result, { memory := s.memory, heap := s.heap, output := s.output })

def entryTemps (names : List Name) (args : List Value) : Temps :=
  (names.zip args).foldl (fun temps (n, v) => temps.set n (some v)) .none

def enter (f : SourceFunc) (args : List Value) : Except Fault Frame :=
  if args.length = f.args.length then
    .ok { func := f, position := 0, temps := entryTemps f.args args }
  else .error (.wrongCount f.name)

namespace Config

def advance (c : Config) : Config :=
  { c with frame := { c.frame with position := c.frame.position + 1 } }

def assign (c : Config) (t : Name) (v : Option Value) : Config :=
  { c with frame := { c.frame with temps := c.frame.temps.set t v } }

def keep (c : Config) (result : Option Name) (v : Option Value) : Config :=
  match result with
  | some t => c.assign t v
  | none => c

def goto (c : Config) (l : Name) : Except Fault Config :=
  match labelPosition? c.frame.func.body l with
  | some i => .ok { c with frame := { c.frame with position := i } }
  | none => .error (.undefinedLabel l)

/-- Goes back to the function that waits, or ends the run. -/
def leave (c : Config) (v : Option Value) : Progress :=
  match c.waiting with
  | [] => .finished v c.world
  | (frame, result) :: waiting =>
    .running ({ c with frame, waiting }.keep result v)

end Config

structure Context where
  scope : Scope
  funcs : List SourceFunc

/-- Calls what a value stands for. A symbol may name a built-in function. -/
def call (ctx : Context) (c : Config) (callee : Expr) (args : List Value)
    (result : Option Name) : Except Fault Config := do
  let builtin? := match callee with
    | .name n => Builtin.ofName? n
    | _ => none
  match builtin? with
  | some b =>
    let words ← args.mapM Value.toWord
    let (v, world) ← c.world.callBuiltin b words
    return { c with world }.advance.keep result v
  | none =>
    match ← eval ctx.scope c.frame.temps c.world.memory callee with
    | .word v => throw (.notAFunc v)
    | .func n => match ctx.funcs.find? fun f => f.name == n with
      | none => throw (.unknownName n)
      | some f => return { c with
          frame := ← enter f args
          waiting := (c.advance.frame, result) :: c.waiting }

def exec (ctx : Context) (c : Config) (s : Stmt Expr) : Except Fault Progress := do
  let value := eval ctx.scope c.frame.temps c.world.memory
  match s with
  | .move dest src => return .running (c.advance.assign dest (some (← value src)))
  | .store a src =>
    let address ← (← value a).toWord
    let v ← (← value src).toWord
    ctx.scope.checkAddress address
    let world := { c.world with memory := c.world.memory.write address v }
    return .running { c.advance with world }
  | .call callee args result =>
    return .running (← call ctx c callee (← args.mapM value) result)
  | .jump l => return .running (← c.goto l)
  | .label _ => return .running c.advance
  | .branch cond l =>
    if (← (← value cond).toWord) = 0 then return .running c.advance
    else return .running (← c.goto l)
  | .ret none => return c.leave none
  | .ret (some e) => return c.leave (some (← value e))
  | .absent => throw .empty

/-- One step. A function that gives a value must not end without it. -/
def step (ctx : Context) (c : Config) : Except Fault Progress :=
  match c.frame.func.body[c.frame.position]? with
  | some s => exec ctx c s
  | none =>
    if c.frame.func.returns then .error (.noResult c.frame.func.name) else .ok (c.leave none)

/-- Runs until the end, unless fuel runs out before it. -/
def run (ctx : Context) : (fuel : Nat) → Config → Except Fault (Option (Option Value × World))
  | 0, _ => .ok none
  | fuel + 1, c => do
    match ← step ctx c with
    | .finished v w => return some (v, w)
    | .running c => run ctx fuel c

/-- The context and the world that a module starts with. Memory belongs to the program
below the stack's reserve. -/
def start (m : SourceModule) : Context × World :=
  let (table, memory, heap) := Image.placeGlobals m.globals (∅, .empty, dataStart)
  let isFunc (n : Name) : Bool := m.funcs.any fun f => f.name == n
  ({ scope := { globals := (table[·]?), isFunc, limit := heapLimit }, funcs := m.funcs },
    { memory, heap, output := #[] })

def callFunction (m : SourceModule) (fuel : Nat) (entry : Name) (args : List Int64) :
    Except Fault (Option (Option Value × World)) := do
  let (ctx, world) := start m
  match m.funcs.find? fun f => f.name == entry with
  | none => throw (.unknownName entry)
  | some f => run ctx fuel { frame := ← enter f (args.map .word), waiting := [], world }

end X64Backend.Meaning
