import X64Backend.CommandLine.Options
import X64Backend.Code.Printer
import X64Backend.Generate

/-! # Commands

What the commands do with files: write modules in their standard form, compile them
to assembly text, and run a function of one. Files and output belong to a host, so
that the commands mean the same on a real system and on files held in memory.
-/

namespace X64Backend.CommandLine

/-- What commands ask of the system. Files are named as on the command line, and a
failure comes with its wording. -/
structure Host (m : Type → Type) where
  readFile : Bytes → m (Except Bytes Bytes)
  writeFile : Bytes → Bytes → m (Except Bytes Unit)
  print : Bytes → m Unit

inductive Failure
  | message (parts : List Bytes)
  | defect (d : Defect)

inductive Exit
  | success
  | failure (report : Bytes)
  | broken (d : Defect)
  deriving DecidableEq

def Exit.code : Exit → Nat
  | .success => 0
  | .failure _ => 1
  | .broken _ => 2

/-- What a command does on a host. -/
abbrev Action (m : Type → Type) := ExceptT Failure m

/-- A failure seen from further outside. -/
def Failure.within (part : Bytes) : Failure → Failure
  | .message parts => .message (part :: parts)
  | .defect d => .defect d

section

variable {m : Type → Type} [Monad m]

def fail {α : Type} (part : Bytes) : Action m α := throw (.message [part])

/-- An action whose failures are seen from further outside. -/
def within {α : Type} (part : Bytes) (x : Action m α) : Action m α :=
  ExceptT.adapt (Failure.within part) x

/-- What a host answers, with the wording of its failure. -/
def ask {α : Type} (x : m (Except Bytes α)) : Action m α := do
  match ← x with
  | .ok a => return a
  | .error reason => fail reason

def orDefect {α : Type} : Except Defect α → Action m α
  | .ok a => return a
  | .error d => throw (.defect d)

def formatFile (host : Host m) (file : Bytes) : Action m Bytes := do
  let unit ← within ("parse " ++ file) do
    let text ← within "read" (ask (host.readFile file))
    match Code.Module.read text with
    | .ok unit => return unit
    | .error fault => fail (fault.message file)
  match unit.print with
  | .ok text => return text
  | .error fault => throw (.message ["format " ++ file, fault.message])

def format (host : Host m) (files : List Bytes) : Action m Unit :=
  files.forM fun file => do host.print (← formatFile host file)

def Options.config (o : Options) : Config :=
  { removeComments := !o.comments, allocator := o.allocator }

def compileFile (host : Host m) (o : Options) (file : Bytes) : Action m Asm.Program :=
  within ("compile " ++ file) do
    let text ← within "read file" (ask (host.readFile file))
    match X64Backend.compile o.config text with
    | .ok p => return p
    | .error (.generate (.defect d)) => throw (.defect d)
    | .error fault => fail ((fault.message? file).getD [])

/-- Writes the assembly text of files to where the options say. -/
def compile (host : Host m) (o : Options) (files : List Bytes) : Action m Unit := do
  let texts ← files.mapM fun file => do orDefect (← compileFile host o file).text
  if o.output.isEmpty then host.print texts.flatten
  else within "write output" (ask (host.writeFile o.output texts.flatten))

def argument (word : Bytes) : Action m Int64 :=
  match Numeral.readDecimal word with
  | .ok n => return n
  | .error flaw => throw (.message ["parse arg " ++ Quoted.write word, flaw.message word])

/-- Runs a function of a file and writes what it wrote, its result and its steps. -/
def run (host : Host m) (o : Options) : List Bytes → Action m Unit
  | [] => fail "file expected"
  | file :: words => do
    let p ← compileFile host o file
    let args ← words.mapM argument
    let (image, start) := Machine.load p
    let limits : Machine.Limits := { maxSteps := o.maxSteps, cancelled := false }
    match (image.callFunction limits o.entry args start).1 with
    | .broken d => throw (.defect d)
    | .failed _ message r => do
      host.print r.output
      throw (.message ["run", message])
    | .finished r =>
      host.print (r.output ++ "rax: " ++ Bytes.ofWord r.rax ++ " (" ++ Bytes.ofNat r.steps ++
        " steps)\n")

/-- Does what a request asks for. Nothing is asked for without a command. -/
def perform (host : Host m) (r : Request) : Action m Unit :=
  match r.command with
  | none => return
  | some c => within c.name <| match c with
    | .format => format host r.words
    | .compile => compile host r.options r.words
    | .run => run host r.options r.words

def finish : Except Failure Unit → Exit
  | .ok _ => .success
  | .error (.message parts) => .failure ("error: " ++ Bytes.messageChain parts ++ "\n")
  | .error (.defect d) => .broken d

/-- Understands the words of a command line and does what they ask for. -/
def execute (host : Host m) (words : List Bytes) : m Exit := do
  match Request.read words .start with
  | .ok r => return finish (← (perform host r).run)
  | .error (r, misuse) =>
    let command := (r.command.map Command.name).toList
    return finish (.error (.message (command ++ [misuse.message])))

end

end X64Backend.CommandLine
