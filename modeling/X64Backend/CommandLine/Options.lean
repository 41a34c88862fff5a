import X64Backend.Machine.Step

/-! # Options

The words of a command line: flags that belong to all commands, one command, flags
of that command and what it works on. A flag is written with one dash or two; its
value follows an equals sign or is the next word. Behind `--` there are no flags.
-/

namespace X64Backend.CommandLine

inductive Command
  | format
  | compile
  | run
  deriving DecidableEq, Inhabited

namespace Command

def name : Command → Bytes
  | .format => "fmt"
  | .compile => "compile"
  | .run => "run"

def ofName? (n : Bytes) : Option Command := [format, compile, run].find? fun c => c.name = n

end Command

inductive Flag
  | checkInvariant
  | comments
  | allocator
  | verbosity
  | output
  | entry
  | maxSteps
  deriving DecidableEq, Inhabited

namespace Flag

def names : Flag → List Bytes
  | .checkInvariant => ["check-invariant"]
  | .comments => ["comments"]
  | .allocator => ["allocator"]
  | .verbosity => ["verbosity", "v"]
  | .output => ["output", "o"]
  | .entry => ["entry", "e"]
  | .maxSteps => ["max-steps"]

/-- Whether a flag is on or off and needs no value. -/
def isSwitch : Flag → Bool
  | .checkInvariant | .comments => true
  | _ => false

def shared : List Flag := [.checkInvariant, .comments, .allocator, .verbosity]

/-- The flags that are known once a command is. -/
def known : Option Command → List Flag
  | some .compile => .output :: shared
  | some .run => .entry :: .maxSteps :: shared
  | some .format | none => shared

end Flag

/-- What the flags say. Verbosity and checking show in no result. -/
structure Options where
  comments : Bool
  allocator : Bytes
  output : Bytes
  entry : Bytes
  maxSteps : Int64
  deriving DecidableEq, Inhabited

def Options.standard : Options where
  comments := true
  allocator := "irc"
  output := []
  entry := "main"
  maxSteps := Machine.defaultMaxSteps

/-- A command line that was understood up to some word. -/
structure Request where
  command : Option Command
  options : Options
  words : List Bytes
  deriving DecidableEq, Inhabited

/-- What is wrong with a word of a command line. -/
inductive Misuse
  | unexpected (word : Bytes)
  | unknownFlag (word : Bytes)
  | noValue (word : Bytes)
  | badSwitch (word value : Bytes)
  | badNumber (word value : Bytes) (flaw : Numeral.Flaw)
  deriving DecidableEq

def Misuse.message : Misuse → Bytes
  | .unexpected w => "no args expected, got " ++ w
  | .unknownFlag w => Bytes.messageChain ["parse flag", w, "no such flag"]
  | .noValue w => Bytes.messageChain ["parse flag", w, "value expected"]
  | .badSwitch w v =>
    Bytes.messageChain
      ["parse flag", w, "strconv.ParseBool: parsing " ++ Quoted.write v, "invalid syntax"]
  | .badNumber w v flaw => Bytes.messageChain ["parse flag", w, flaw.message v]

def readSwitch? (v : Bytes) : Option Bool :=
  let yes : List Bytes := ["1", "t", "T", "true", "TRUE", "True"]
  let no : List Bytes := ["0", "f", "F", "false", "FALSE", "False"]
  if yes.contains v then some true else if no.contains v then some false else none

/-- The options with a flag that was written in a word set to a value. -/
def Options.set (o : Options) (word : Bytes) (flag : Flag) (value : Bytes) :
    Except Misuse Options :=
  match flag with
  | .checkInvariant => match readSwitch? value with
    | some _ => .ok o
    | none => .error (.badSwitch word value)
  | .comments => match readSwitch? value with
    | some b => .ok { o with comments := b }
    | none => .error (.badSwitch word value)
  | .allocator => .ok { o with allocator := value }
  | .verbosity => .ok o
  | .output => .ok { o with output := value }
  | .entry => .ok { o with entry := value }
  | .maxSteps => match Numeral.readDecimal value with
    | .ok n => .ok { o with maxSteps := n }
    | .error flaw => .error (.badNumber word value flaw)

def dash : UInt8 := Bytes.ofChar '-'

/-- Whether a word is a flag: a dash and something behind it. -/
def isFlag : Bytes → Bool
  | b :: _ :: _ => b = dash
  | _ => false

/-- The name and the value in a word that is a flag. -/
def splitFlag (word : Bytes) : Bytes × Option Bytes :=
  let body := match word with
    | a :: b :: rest => if b = dash then rest else if a = dash then b :: rest else word
    | _ => word
  let equals := Bytes.ofChar '='
  match body.dropWhile (· != equals) with
  | [] => (body, none)
  | _ :: value => (body.takeWhile (· != equals), some value)

namespace Request

def start : Request := { command := none, options := .standard, words := [] }

def flag? (r : Request) (name : Bytes) : Option Flag :=
  (Flag.known r.command).find? fun f => f.names.contains name

/-- Takes a word that is no flag: the command, or what the command works on. -/
def addWord (r : Request) (word : Bytes) : Except Misuse Request :=
  match r.command with
  | some _ => .ok { r with words := r.words ++ [word] }
  | none => match Command.ofName? word with
    | some c => .ok { r with command := some c }
    | none => .error (.unexpected word)

def setFlag (r : Request) (word : Bytes) (flag : Flag) (value : Bytes) : Except Misuse Request :=
  do return { r with options := ← r.options.set word flag value }

/-- The request that was not misused, or the one before and its misuse. -/
def taken (r : Request) : Except Misuse Request → Except (Request × Misuse) Request
  | .ok r => .ok r
  | .error m => .error (r, m)

/-- Takes words, and on misuse tells how far the request was understood. -/
def read : List Bytes → Request → Except (Request × Misuse) Request
  | [], r => .ok r
  | word :: rest, r =>
    if word = "--" then rest.foldlM (fun r w => r.taken (r.addWord w)) r
    else if isFlag word then
      match r.flag? (splitFlag word).1, (splitFlag word).2 with
      | none, _ => .error (r, .unknownFlag word)
      | some flag, some value => r.taken (r.setFlag word flag value) >>= read rest
      | some flag, none =>
        if flag.isSwitch then r.taken (r.setFlag word flag "true") >>= read rest
        else match rest with
          | [] => .error (r, .noValue word)
          | value :: rest => r.taken (r.setFlag word flag value) >>= read rest
    else r.taken (r.addWord word) >>= read rest

end Request

end X64Backend.CommandLine
