/-! # Byte texts

Names, string contents and printed text are sequences of bytes. Text written by
people is UTF-8, but nothing here depends on it: a name may hold any bytes.
-/

namespace X64Backend

abbrev Bytes := List UInt8

namespace Bytes

def ofString (s : String) : Bytes := s.toUTF8.data.toList

instance : Coe String Bytes := ⟨ofString⟩

def ofChar (c : Char) : UInt8 := c.toNat.toUInt8

/-- Digits of `n` in a base up to sixteen, most significant first, in lower case. -/
def digits (base n : Nat) : Bytes := (Nat.toDigits base n).map ofChar

def ofNat (n : Nat) : Bytes := digits 10 n

/-- The decimal text of an integer, with a minus sign when negative. -/
def ofInt : Int → Bytes
  | .ofNat n => ofNat n
  | .negSucc n => ofChar '-' :: ofNat (n + 1)

def ofWord (v : Int64) : Bytes := ofInt v.toInt

/-- The hexadecimal text of a machine word, with `0x` after the sign. -/
def ofAddress (v : Int64) : Bytes :=
  match v.toInt with
  | .ofNat n => "0x" ++ digits 16 n
  | .negSucc n => "-0x" ++ digits 16 (n + 1)

/-- Hexadecimal digits of `n`, filled with zeros on the left up to `width`. -/
def hexPadded (width n : Nat) : Bytes :=
  let ds := digits 16 n
  List.replicate (width - ds.length) (ofChar '0') ++ ds

def join (separator : Bytes) (parts : List Bytes) : Bytes :=
  List.flatten (parts.intersperse separator)

/-- The text with `inserted` after every newline. -/
def indentLines (inserted : Bytes) (text : Bytes) : Bytes :=
  text.flatMap fun c => if c = ofChar '\n' then c :: inserted else [c]

/-- Messages from the outermost to the innermost, divided by a colon. Empty ones are left out. -/
def messageChain (parts : List Bytes) : Bytes :=
  join ": " (parts.filter fun p => !p.isEmpty)

end Bytes

end X64Backend
