import X64Backend.Text.Bytes

/-! # Wire form

The binary form in which sets and names are handed on: data items with a head that
tells kind and size in the fewest bytes, big end first.
-/

namespace X64Backend.Wire

/-- The low `count` bytes of a number, the highest first. -/
def bigEndian : (count : Nat) → Nat → Bytes
  | 0, _ => []
  | count + 1, n => (n >>> (8 * count)).toUInt8 :: bigEndian count n

/-- The head of an item of a kind from zero to seven with a size or value. -/
def head (kind n : Nat) : Bytes :=
  let mark (low : Nat) : UInt8 := (kind * 32 + low).toUInt8
  if n < 24 then [mark n]
  else if n < 0x100 then mark 24 :: bigEndian 1 n
  else if n < 0x10000 then mark 25 :: bigEndian 2 n
  else if n < 0x100000000 then mark 26 :: bigEndian 4 n
  else mark 27 :: bigEndian 8 n

def number (n : Nat) : Bytes := head 0 n

def text (t : Bytes) : Bytes := head 3 t.length ++ t

def list (items : List Bytes) : Bytes := head 4 items.length ++ items.flatten

/-- A list that is closed by a mark of its own. -/
def openList (items : List Bytes) : Bytes := 0x9F :: items.flatten ++ [0xFF]

def null : Bytes := [0xF6]

end X64Backend.Wire
