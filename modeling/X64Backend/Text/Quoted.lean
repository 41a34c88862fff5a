import X64Backend.Text.Printable
import X64Backend.Text.Rune

/-! # Quoted text

Text between quotes, with backslash escapes for what is not printable. Writing
escapes as little as it can. Reading takes every escape that writing may produce
and some more; a byte outside UTF-8 reads as the replacement character.
-/

namespace X64Backend

namespace Quoted

def backslash : UInt8 := Bytes.ofChar '\\'

/-- The letter after the backslash for a control character that has one. -/
def controlLetter? (code : Nat) : Option Char :=
  match code with
  | 7 => some 'a'
  | 8 => some 'b'
  | 9 => some 't'
  | 10 => some 'n'
  | 11 => some 'v'
  | 12 => some 'f'
  | 13 => some 'r'
  | _ => none

/-- A character as it is written between two `quote` marks. -/
def writeRune (quote : UInt8) (code : Nat) : Bytes :=
  if code = quote.toNat || code = backslash.toNat then [backslash, code.toUInt8]
  else if Rune.isPrintable code then Rune.encode code
  else match controlLetter? code with
    | some letter => [backslash, Bytes.ofChar letter]
    | none =>
      if code < 0x20 || code = 0x7F then "\\x" ++ Bytes.hexPadded 2 code
      else if code < 0x10000 then "\\u" ++ Bytes.hexPadded 4 code
      else "\\U" ++ Bytes.hexPadded 8 code

/-- The characters of a text as written between double quotes, after `skip` bytes
that belong to a character already written. -/
def writeFrom : Nat → Bytes → Bytes
  | _, [] => []
  | skip + 1, _ :: rest => writeFrom skip rest
  | 0, b :: rest =>
    match Rune.decode? (b :: rest) with
    | some (code, width) => writeRune (Bytes.ofChar '"') code ++ writeFrom (width - 1) rest
    | none => "\\x" ++ Bytes.hexPadded 2 b.toNat ++ writeFrom 0 rest

def write (text : Bytes) : Bytes := "\"" ++ writeFrom 0 text ++ "\""

/-- The character whose code point is `b`, between single quotes. -/
def writeByte (b : UInt8) : Bytes := "'" ++ writeRune (Bytes.ofChar '\'') b.toNat ++ "'"

def hexValue? (b : UInt8) : Option Nat :=
  if Bytes.ofChar '0' ≤ b && b ≤ Bytes.ofChar '9' then some (b.toNat - 48)
  else if Bytes.ofChar 'a' ≤ b && b ≤ Bytes.ofChar 'f' then some (b.toNat - 87)
  else if Bytes.ofChar 'A' ≤ b && b ≤ Bytes.ofChar 'F' then some (b.toNat - 55)
  else none

/-- The value of exactly `count` digits below `base` at the start of a text. -/
def digits? (base : Nat) : Nat → Nat → Bytes → Option Nat
  | 0, value, _ => some value
  | count + 1, value, b :: rest =>
    match hexValue? b with
    | some d => if d < base then digits? base count (value * base + d) rest else none
    | none => none
  | _ + 1, _, [] => none

/-- What an escape stands for, and how many bytes it takes after its backslash. -/
def readEscape? : Bytes → Option (Bytes × Nat)
  | [] => none
  | b :: rest =>
    if b = Bytes.ofChar 'a' then some ([7], 1)
    else if b = Bytes.ofChar 'b' then some ([8], 1)
    else if b = Bytes.ofChar 'f' then some ([12], 1)
    else if b = Bytes.ofChar 'n' then some ([10], 1)
    else if b = Bytes.ofChar 'r' then some ([13], 1)
    else if b = Bytes.ofChar 't' then some ([9], 1)
    else if b = Bytes.ofChar 'v' then some ([11], 1)
    else if b = backslash || b = Bytes.ofChar '"' then some ([b], 1)
    else if b = Bytes.ofChar 'x' then
      (digits? 16 2 0 rest).map fun value => ([value.toUInt8], 3)
    else if b = Bytes.ofChar 'u' then
      (digits? 16 4 0 rest).bind fun value =>
        if Rune.isScalar value then some (Rune.encode value, 5) else none
    else if b = Bytes.ofChar 'U' then
      (digits? 16 8 0 rest).bind fun value =>
        if Rune.isScalar value then some (Rune.encode value, 9) else none
    else if Bytes.ofChar '0' ≤ b && b ≤ Bytes.ofChar '7' then
      (digits? 8 3 0 (b :: rest)).bind fun value =>
        if value < 256 then some ([value.toUInt8], 3) else none
    else none

/-- The text that the bytes between two double quotes stand for, after `skip` bytes
that were already read. -/
def readFrom : Nat → Bytes → Option Bytes
  | _, [] => some []
  | skip + 1, _ :: rest => readFrom skip rest
  | 0, b :: rest =>
    if b = backslash then
      match readEscape? rest with
      | some (text, width) => (readFrom width rest).map (text ++ ·)
      | none => none
    else match Rune.decode? (b :: rest) with
      | some (code, width) => (readFrom (width - 1) rest).map (Rune.encode code ++ ·)
      | none => (readFrom 0 rest).map (Rune.encode Rune.replacement ++ ·)

def read? (content : Bytes) : Option Bytes := readFrom 0 content

end Quoted

end X64Backend
