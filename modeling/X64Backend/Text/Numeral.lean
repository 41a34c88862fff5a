import X64Backend.Text.Quoted

/-! # Numerals of machine words

Signed 64-bit numerals: plain decimal ones with an optional sign, and source
numerals with a base mark and underscores between digits.
-/

namespace X64Backend

namespace Numeral

inductive Flaw
  | malformed
  | outOfRange
  deriving DecidableEq, Repr

def Flaw.message (text : Bytes) (flaw : Flaw) : Bytes :=
  "strconv.ParseInt: parsing " ++ Quoted.write text ++ ": " ++
    match flaw with
    | .malformed => Bytes.ofString "invalid syntax"
    | .outOfRange => Bytes.ofString "value out of range"

/-- The value of a digit or letter, `a` in either case being ten. -/
def digitValue? (b : UInt8) : Option Nat :=
  if Bytes.ofChar '0' ≤ b && b ≤ Bytes.ofChar '9' then some (b.toNat - 48)
  else if Bytes.ofChar 'a' ≤ b && b ≤ Bytes.ofChar 'z' then some (b.toNat - 87)
  else if Bytes.ofChar 'A' ≤ b && b ≤ Bytes.ofChar 'Z' then some (b.toNat - 55)
  else none

/-- The digits are read from the left, and the first flaw met is reported. A value
of 2^64 or more is out of range as soon as it is reached. -/
def readDigits (base : Nat) : Nat → Bytes → Except Flaw Nat
  | value, [] => .ok value
  | value, b :: rest =>
    match digitValue? b with
    | none => .error .malformed
    | some d =>
      if base ≤ d then .error .malformed
      else if 0x10000000000000000 ≤ value * base + d then .error .outOfRange
      else readDigits base (value * base + d) rest

/-- Underscores stand only behind a digit and before another. The first argument
says whether a digit stands right before the text. -/
def wellSeparated : Bool → Bytes → Bool
  | afterDigit, [] => afterDigit
  | afterDigit, b :: rest =>
    if b = Bytes.ofChar '_' then afterDigit && wellSeparated false rest
    else wellSeparated true rest

/-- Digits of a base with underscores between them. -/
def readSeparated (base : Nat) (afterDigit : Bool) (text : Bytes) : Except Flaw Nat := do
  let value ← readDigits base 0 (text.filter (· ≠ Bytes.ofChar '_'))
  if wellSeparated afterDigit text then return value else throw .malformed

/-- Whether `b` is the letter `c` in lower or upper case. -/
def isLetter (c : Char) (b : UInt8) : Bool :=
  b = Bytes.ofChar c || b = Bytes.ofChar c - 32

/-- The magnitude that a source numeral denotes. A leading `0b`, `0o` or `0x` with
something behind it gives the base; any other leading zero means octal. -/
def readMagnitude : Bytes → Except Flaw Nat
  | [] => .error .malformed
  | zero :: rest =>
    if zero = Bytes.ofChar '0' then
      match rest with
      | mark :: d :: ds =>
        if isLetter 'b' mark then readSeparated 2 true (d :: ds)
        else if isLetter 'o' mark then readSeparated 8 true (d :: ds)
        else if isLetter 'x' mark then readSeparated 16 true (d :: ds)
        else readSeparated 8 true rest
      | _ => readSeparated 8 true rest
    else readSeparated 10 false (zero :: rest)

/-- The word that a source numeral without a sign denotes. -/
def readSource (text : Bytes) : Except Flaw Int64 := do
  let value ← readMagnitude text
  if value < 0x8000000000000000 then return Int64.ofNat value else throw .outOfRange

/-- The word that a decimal numeral denotes, with an optional sign and no underscores. -/
def readDecimal (text : Bytes) : Except Flaw Int64 :=
  let magnitude (ds : Bytes) : Except Flaw Nat :=
    if ds.isEmpty then .error .malformed else readDigits 10 0 ds
  match text with
  | [] => .error .malformed
  | sign :: ds =>
    if sign = Bytes.ofChar '-' then do
      let value ← magnitude ds
      if value ≤ 0x8000000000000000 then return Int64.ofInt (-value) else throw .outOfRange
    else do
      let value ← magnitude (if sign = Bytes.ofChar '+' then ds else text)
      if value < 0x8000000000000000 then return Int64.ofNat value else throw .outOfRange

end Numeral

end X64Backend
