import X64Backend.Code.Token

/-! # Reading code

A recursive-descent reader from tokens to modules. It stops at the first fault
and reports the line of the last token it took, and the function whose statement
it was reading.

Readers that repeat or nest take fuel. Each repetition and each bracket takes a
token, so fuel above the number of tokens left is never used up.
-/

namespace X64Backend.Code

namespace Reader

/-- What the reader would have accepted. -/
inductive Wanted
  | mark (mark : Mark)
  | gotoWord
  | identifier
  | argumentName
  | string
  | expression
  | statement
  | declaration
  | commaOrClose
  | assignOrColon
  deriving DecidableEq

def Wanted.message : Wanted → Bytes
  | .mark m => "expected " ++ m.text
  | .gotoWord => "expected goto"
  | .identifier => "identifier expected"
  | .argumentName => "argument name expected"
  | .string => "string expected"
  | .expression => "expression expected"
  | .statement => "statement expected"
  | .declaration => "global or func expected"
  | .commaOrClose => "expected , or )"
  | .assignOrColon => "expected = or :"

/-- Why a text is no module. The end of the text counts as no token. -/
inductive Cause
  | flaw (flaw : Token.Flaw)
  | wanted (wanted : Wanted) (got : Option Token)
  | endInside (func : Name)
  deriving DecidableEq

def Cause.message : Cause → Bytes
  | .flaw f => f.message
  | .wanted w got =>
    w.message ++ ", got " ++ ((got.map Token.text).getD "<nil>")
  | .endInside func => "unexpected end of file in " ++ func

/-- A fault: its cause, its line, and the function if a statement was being read. -/
structure Fault where
  cause : Cause
  line : Nat
  func : Option Name
  deriving DecidableEq

def Fault.message (file : Bytes) (fault : Fault) : Bytes :=
  Bytes.messageChain
    [match fault.func with
      | some name => "func " ++ name
      | none => [],
      file ++ ":" ++ Bytes.ofNat fault.line,
      fault.cause.message]

end Reader

/-- A reader of an `α` from tokens. -/
abbrev Reader (α : Type) := StateT Tokens (Except Reader.Fault) α

namespace Reader

/-- Stops at the line of the last token taken. -/
def fail {α : Type} (cause : Cause) : Reader α := fun tokens =>
  .error { cause, line := tokens.line, func := none }

/-- Stops for want of fuel. -/
def exhausted {α : Type} : Reader α := fail (.flaw .exhausted)

/-- The next token, left in place; `none` at the end of the text. -/
def peek : Reader (Option Token) := fun tokens =>
  match tokens.lexemes, tokens.ending with
  | lexeme :: _, _ => .ok (some lexeme.token, tokens)
  | [], .finished _ => .ok (none, tokens)
  | [], .flawed flaw line => .error { cause := .flaw flaw, line, func := none }

/-- Takes the next token; `none` at the end of the text. -/
def next : Reader (Option Token) := fun tokens =>
  match tokens.lexemes, tokens.ending with
  | lexeme :: rest, _ => .ok (some lexeme.token, { tokens with lexemes := rest, line := lexeme.line })
  | [], .finished line => .ok (none, { tokens with line })
  | [], .flawed flaw line => .error { cause := .flaw flaw, line, func := none }

/-- Takes the next token, which must be the given mark. -/
def expect (mark : Mark) : Reader Unit := do
  let got ← next
  if got = some (.mark mark) then pure () else fail (.wanted (.mark mark) got)

def identifier : Reader Name := do
  match ← next with
  | some (.word name) => pure name
  | got => fail (.wanted .identifier got)

/-- The negation of an expression: a constant is negated, anything else is taken from zero. -/
def negate : Expr → Expr
  | .const value => .const (-value)
  | e => .binary .sub (.const 0) e

/-- Takes minus signs as long as there are any, and tells how many. -/
def minusSigns : (fuel : Nat) → Reader Nat
  | 0 => exhausted
  | fuel + 1 => do
    if (← peek) = some (.mark (.op .sub)) then
      let _ ← next
      return (← minusSigns fuel) + 1
    else return 0

def index (expr : Reader Expr) : Reader Expr := do
  expect .openBracket
  let address ← expr
  expect .closeBracket
  return address

def primary (expr : Reader Expr) : Reader Expr := do
  match ← next with
  | some (.number value) => return .const value
  | some (.word name) =>
    if name = "mem" then return .mem (← index expr) else return .temp name
  | some (.mark .at) => return .name (← identifier)
  | some (.mark .openParen) =>
    let e ← expr
    expect .closeParen
    return e
  | got => fail (.wanted .expression got)

/-- An operand behind any number of minus signs. -/
def unary (fuel : Nat) (expr : Reader Expr) : Reader Expr := do
  let signs ← minusSigns fuel
  let e ← primary expr
  return Nat.repeat negate signs e

/-- Further operands of one level behind `left`, grouped to the left. -/
def operands (operand : Reader Expr) (level : Nat) : (fuel : Nat) → Expr → Reader Expr
  | 0, _ => exhausted
  | fuel + 1, left => do
    match ← peek with
    | some (.mark (.op op)) =>
      if op.level? = some level then
        let _ ← next
        let right ← operand
        operands operand level fuel (.binary op left right)
      else return left
    | _ => return left

/-- An expression that binds at least as tightly as the last `above` levels, where
`expr` reads what stands inside brackets. -/
def leveled (fuel : Nat) (expr : Reader Expr) : (above : Nat) → Reader Expr
  | 0 => unary fuel expr
  | above + 1 => do
    let first ← leveled fuel expr above
    operands (leveled fuel expr above) (levelCount - (above + 1)) fuel first

def expr : (fuel : Nat) → Reader Expr
  | 0 => exhausted
  | fuel + 1 => leveled (fuel + 1) (expr fuel) levelCount

/-- Call arguments up to the closing parenthesis. There is at least one. -/
def callArgs : (fuel : Nat) → Reader (List Expr)
  | 0 => exhausted
  | fuel + 1 => do
    let arg ← expr (fuel + 1)
    match ← next with
    | some (.mark .closeParen) => return [arg]
    | some (.mark .comma) => return arg :: (← callArgs fuel)
    | got => fail (.wanted .commaOrClose got)

def call (fuel : Nat) (result : Option Name) : Reader (Stmt Expr) := do
  let func ← primary (expr fuel)
  expect .openParen
  if (← peek) = some (.mark .closeParen) then
    let _ ← next
    return .call func [] result
  else return .call func (← callArgs fuel) result

/-- A statement. A return takes a value if the function gives one. -/
def stmt (fuel : Nat) (returns : Bool) : Reader (Stmt Expr) := do
  match ← next with
  | some (.word word) =>
    if word = "goto" then return .jump (← identifier)
    else if word = "if" then
      let cond ← expr fuel
      let got ← next
      if got = some (.word "goto") then return .branch cond (← identifier)
      else fail (.wanted .gotoWord got)
    else if word = "return" then
      if returns then return .ret (some (← expr fuel)) else return .ret none
    else if word = "call" then call fuel none
    else if word = "mem" then
      let address ← index (expr fuel)
      expect .assign
      return .store address (← expr fuel)
    else match ← next with
      | some (.mark .colon) => return .label word
      | some (.mark .assign) =>
        if (← peek) = some (.word "call") then
          let _ ← next
          call fuel (some word)
        else return .move word (← expr fuel)
      | got => fail (.wanted .assignOrColon got)
  | got => fail (.wanted .statement got)

/-- Marks a fault as lying in a statement of a function. -/
def inside {α : Type} (func : Name) (reader : Reader α) : Reader α := fun tokens =>
  match reader tokens with
  | .ok result => .ok result
  | .error fault => .error { fault with func := some func }

/-- Statements up to the closing brace. Semicolons between them are dropped. -/
def body (func : Name) (returns : Bool) : (fuel : Nat) → Reader (List (Stmt Expr))
  | 0 => exhausted
  | fuel + 1 => do
    match ← peek with
    | some (.mark .closeBrace) =>
      let _ ← next
      return []
    | some (.mark .semicolon) =>
      let _ ← next
      body func returns fuel
    | none => fail (.endInside func)
    | some _ =>
      let s ← inside func (stmt (fuel + 1) returns)
      return s :: (← body func returns fuel)

def moreArgs : (fuel : Nat) → Reader (List Name)
  | 0 => exhausted
  | fuel + 1 => do
    match ← next with
    | some (.mark .closeParen) => return []
    | some (.mark .comma) =>
      match ← next with
      | some (.word name) => return name :: (← moreArgs fuel)
      | got => fail (.wanted .argumentName got)
    | got => fail (.wanted .commaOrClose got)

def args (fuel : Nat) : Reader (List Name) := do
  match ← next with
  | some (.mark .closeParen) => return []
  | some (.word name) => return name :: (← moreArgs fuel)
  | got => fail (.wanted .argumentName got)

/-- A function behind its word. Any word before the brace says that it gives a value. -/
def func (fuel : Nat) : Reader SourceFunc := do
  let name ← identifier
  expect .openParen
  let args ← args fuel
  let got ← next
  let (returns, got) ← match got with
    | some (.word _) => do pure (true, ← next)
    | got => pure (false, got)
  if got = some (.mark .openBrace) then
    let body ← body name returns fuel
    return { name, args, returns, body }
  else fail (.wanted (.mark .openBrace) got)

def global : Reader Global := do
  let name ← identifier
  expect .assign
  match ← next with
  | some (.string content) => return { name, content }
  | got => fail (.wanted .string got)

def declarations : (fuel : Nat) → Reader SourceModule
  | 0 => exhausted
  | fuel + 1 => do
    match ← next with
    | none => return { globals := [], funcs := [] }
    | some (.word word) =>
      if word = "global" then
        let g ← global
        let rest ← declarations fuel
        return { rest with globals := g :: rest.globals }
      else if word = "func" then
        let f ← func (fuel + 1)
        let rest ← declarations fuel
        return { rest with funcs := f :: rest.funcs }
      else fail (.wanted .declaration (some (.word word)))
    | got => fail (.wanted .declaration got)

end Reader

def Module.ofTokens (tokens : Tokens) : Except Reader.Fault SourceModule :=
  (Reader.declarations (tokens.lexemes.length + 1)).run' tokens

def Module.read (text : Bytes) : Except Reader.Fault SourceModule :=
  Module.ofTokens (Tokens.ofText text)

end X64Backend.Code
