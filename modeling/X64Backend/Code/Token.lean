import X64Backend.Code.Basic
import X64Backend.Text.Numeral

/-! # Tokens of the code text

A text is cut into tokens, each with the line it stands on. Blanks and comments
are dropped. Cutting stops at the first place where no token can be read; a
reader that stops before that place never learns of it.

No token holds a line break, so one line number per token is enough.
-/

namespace X64Backend.Code

/-- Marks of the language: brackets, separators and operators. -/
inductive Mark
  | openParen
  | closeParen
  | openBrace
  | closeBrace
  | openBracket
  | closeBracket
  | comma
  | colon
  | semicolon
  | at
  | assign
  | op (op : Op)
  deriving DecidableEq

def Mark.text : Mark → Bytes
  | .openParen => "("
  | .closeParen => ")"
  | .openBrace => "\x7b"
  | .closeBrace => "\x7d"
  | .openBracket => "["
  | .closeBracket => "]"
  | .comma => ","
  | .colon => ":"
  | .semicolon => ";"
  | .at => "@"
  | .assign => "="
  | .op o => o.symbol

/-- A token. A string is kept as the text it stands for. -/
inductive Token
  | mark (mark : Mark)
  | word (text : Bytes)
  | number (value : Int64)
  | string (content : Bytes)
  deriving DecidableEq

/-- A token as it is named in messages. -/
def Token.text : Token → Bytes
  | .mark m => m.text
  | .word w => w
  | .number v => Bytes.ofWord v
  | .string s => s

namespace Token

/-- Why no token can be read at some place. No text exhausts the fuel. -/
inductive Flaw
  | exhausted
  | unexpected (byte : UInt8)
  | unsupported (byte : UInt8)
  | unterminated
  | badString
  | badNumber (text : Bytes) (flaw : Numeral.Flaw)
  deriving DecidableEq

def Flaw.message : Flaw → Bytes
  | .exhausted => "fuel exhausted"
  | .unexpected byte => "unexpected " ++ Quoted.writeByte byte
  | .unsupported byte => "unsupported token: " ++ Quoted.writeByte byte
  | .unterminated => "unterminated string"
  | .badString => "string: invalid syntax"
  | .badNumber text flaw => "number: " ++ flaw.message text

def isDigit (b : UInt8) : Bool := Bytes.ofChar '0' ≤ b && b ≤ Bytes.ofChar '9'

def isWordStart (b : UInt8) : Bool :=
  (Bytes.ofChar 'A' ≤ b && b ≤ Bytes.ofChar 'Z') ||
    (Bytes.ofChar 'a' ≤ b && b ≤ Bytes.ofChar 'z') || b = Bytes.ofChar '_'

/-- Bytes that can stand inside a word or a number. -/
def isWordPart (b : UInt8) : Bool := isWordStart b || isDigit b

/-- Blanks other than the line break. -/
def isBlank (b : UInt8) : Bool :=
  b = Bytes.ofChar ' ' || b = Bytes.ofChar '\t' || b = Bytes.ofChar '\r'

/-- The mark that a single byte makes, whatever stands behind it. -/
def singleMark? (b : UInt8) : Option Mark :=
  if b = Bytes.ofChar '(' then some .openParen
  else if b = Bytes.ofChar ')' then some .closeParen
  else if b = Bytes.ofChar '\x7b' then some .openBrace
  else if b = Bytes.ofChar '\x7d' then some .closeBrace
  else if b = Bytes.ofChar '[' then some .openBracket
  else if b = Bytes.ofChar ']' then some .closeBracket
  else if b = Bytes.ofChar ',' then some .comma
  else if b = Bytes.ofChar ':' then some .colon
  else if b = Bytes.ofChar ';' then some .semicolon
  else if b = Bytes.ofChar '@' then some .at
  else if b = Bytes.ofChar '+' then some (.op .add)
  else if b = Bytes.ofChar '-' then some (.op .sub)
  else if b = Bytes.ofChar '*' then some (.op .mul)
  else if b = Bytes.ofChar '/' then some (.op .div)
  else if b = Bytes.ofChar '%' then some (.op .mod)
  else if b = Bytes.ofChar '^' then some (.op .xor)
  else none

/-- The marks that a byte makes with an equals sign behind it and without one. An
exclamation mark makes none alone. -/
def comparisonMarks? (b : UInt8) : Option (Mark × Option Mark) :=
  if b = Bytes.ofChar '=' then some (.op .eq, some .assign)
  else if b = Bytes.ofChar '<' then some (.op .le, some (.op .lt))
  else if b = Bytes.ofChar '>' then some (.op .ge, some (.op .gt))
  else if b = Bytes.ofChar '!' then some (.op .ne, none)
  else none

/-- The bytes of a string up to its closing quote, and the text behind that quote.
A backslash protects the byte behind it. -/
def stringContent? : Bytes → Option (Bytes × Bytes)
  | [] => none
  | b :: rest =>
    if b = Bytes.ofChar '"' then some ([], rest)
    else if b = Bytes.ofChar '\n' then none
    else if b = Bytes.ofChar '\\' then
      match rest with
      | [] => none
      | c :: rest' => (stringContent? rest').map fun (content, after) => (b :: c :: content, after)
    else (stringContent? rest).map fun (content, after) => (b :: content, after)

/-- The token that starts with byte `b`, and the text behind it. -/
def read (b : UInt8) (rest : Bytes) : Except Flaw (Token × Bytes) :=
  match singleMark? b, comparisonMarks? b with
  | some m, _ => .ok (.mark m, rest)
  | none, some (long, short?) =>
    match rest, short? with
    | c :: rest', _ =>
      if c = Bytes.ofChar '=' then .ok (.mark long, rest')
      else match short? with
        | some short => .ok (.mark short, rest)
        | none => .error (.unexpected b)
    | [], some short => .ok (.mark short, rest)
    | [], none => .error (.unexpected b)
  | none, none =>
    if b = Bytes.ofChar '"' then
      match stringContent? rest with
      | none => .error .unterminated
      | some (content, after) =>
        match Quoted.read? content with
        | some text => .ok (.string text, after)
        | none => .error .badString
    else if isDigit b then
      let text := b :: rest.takeWhile isWordPart
      match Numeral.readSource text with
      | .ok value => .ok (.number value, rest.dropWhile isWordPart)
      | .error flaw => .error (.badNumber text flaw)
    else if isWordStart b then
      .ok (.word (b :: rest.takeWhile isWordPart), rest.dropWhile isWordPart)
    else .error (.unsupported b)

/-- The line and the text after blanks and comments. A comment starts with two
slashes and ends before the line break; `inComment` says that one has started. -/
def skipBlanks (inComment : Bool) (line : Nat) : Bytes → Nat × Bytes
  | [] => (line, [])
  | b :: rest =>
    if b = Bytes.ofChar '\n' then skipBlanks false (line + 1) rest
    else if inComment then skipBlanks true line rest
    else if isBlank b then skipBlanks false line rest
    else if b = Bytes.ofChar '/' && rest.head? = some (Bytes.ofChar '/') then
      skipBlanks true line rest
    else (line, b :: rest)

end Token

structure Lexeme where
  token : Token
  line : Nat
  deriving DecidableEq

/-- How a sequence of tokens ends: with the text, or where no token can be read. -/
inductive Ending
  | finished (line : Nat)
  | flawed (flaw : Token.Flaw) (line : Nat)
  deriving DecidableEq

/-- What is left to read of a text, and the line of the last token taken from it. -/
structure Tokens where
  lexemes : List Lexeme
  ending : Ending
  line : Nat
  deriving DecidableEq

namespace Tokens

/-- Cuts a text into lexemes. Every token takes at least one byte, so as much fuel
as there are bytes is enough. -/
def scanFrom : (fuel line : Nat) → Bytes → List Lexeme × Ending
  | fuel, line, text =>
    match Token.skipBlanks false line text, fuel with
    | (line, []), _ => ([], .finished line)
    | (line, _ :: _), 0 => ([], .flawed .exhausted line)
    | (line, b :: rest), fuel + 1 =>
      match Token.read b rest with
      | .error flaw => ([], .flawed flaw line)
      | .ok (token, after) =>
        let (lexemes, ending) := scanFrom fuel line after
        (⟨token, line⟩ :: lexemes, ending)

def ofText (text : Bytes) : Tokens :=
  let (lexemes, ending) := scanFrom text.length 1 text
  { lexemes, ending, line := 1 }

end Tokens

end X64Backend.Code
