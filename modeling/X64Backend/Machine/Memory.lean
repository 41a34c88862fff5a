import Std.Data.TreeMap
import X64Backend.Asm.Instr

/-! # Word memory and registers

Memory is a map from addresses to words in which every word starts as zero, and
so are the registers. Both are read and written one word at a time.
-/

namespace X64Backend.Machine

open Asm

/-- Words by address. An address without a word holds zero. -/
structure Memory where
  words : Std.TreeMap Int64 Int64

namespace Memory

def empty : Memory := ⟨∅⟩

def read (m : Memory) (address : Int64) : Int64 := m.words.getD address 0

def write (m : Memory) (address value : Int64) : Memory := ⟨m.words.insert address value⟩

/-- Words written one after another from an address on. -/
def writeAll : Memory → Int64 → List Int64 → Memory
  | m, _, [] => m
  | m, address, v :: rest => (m.write address v).writeAll (address + 8) rest

/-- A length and the bytes of a text, a word each, from an address on. -/
def writeText (m : Memory) (address : Int64) (text : Bytes) : Memory :=
  m.writeAll address (Int64.ofNat text.length :: text.map fun b => Int64.ofNat b.toNat)

/-- The words at `count` addresses from an address on. -/
def readAll (m : Memory) : Nat → Int64 → List Int64
  | 0, _ => []
  | count + 1, address => m.read address :: m.readAll count (address + 8)

/-- The memory with zeros at `count` words from an address on. -/
def zeroAll : Memory → Nat → Int64 → Memory
  | m, 0, _ => m
  | m, count + 1, address => zeroAll ⟨m.words.erase address⟩ count (address + 8)

/-- The memory with zeros at the words from `low` up to `high`. The words are erased
one by one, or picked from those present if these are fewer. -/
def zeroRange (m : Memory) (low high : Int64) : Memory :=
  let count := ((high.toInt - low.toInt + 7) / 8).toNat
  if count ≤ m.words.size then m.zeroAll count low
  else ⟨m.words.filter fun address _ =>
    !(low ≤ address && address < high && (address - low) % 8 == 0)⟩

@[simp] theorem read_empty (address : Int64) : empty.read address = 0 := by
  simp [read, empty]

/-- A word that was written is read, and no other word changes. -/
theorem read_write (m : Memory) (a b v : Int64) :
    (m.write a v).read b = if a = b then v else m.read b := by
  simp [read, write, Std.TreeMap.getD_insert]

end Memory

structure Registers where
  general : Vector Int64 16
  rip : Int64
  abstract : Std.TreeMap Name Int64

namespace Registers

def zero : Registers := { general := Vector.replicate 16 0, rip := 0, abstract := ∅ }

def get (rs : Registers) : Reg → Int64
  | .machine r => rs.general.get r.index
  | .rip => rs.rip
  | .abstract n => rs.abstract.getD n 0

def set (rs : Registers) (r : Reg) (v : Int64) : Registers :=
  match r with
  | .machine r => { rs with general := rs.general.set r.index.val v r.index.isLt }
  | .rip => { rs with rip := v }
  | .abstract n => { rs with abstract := rs.abstract.insert n v }

@[simp] theorem get_zero (r : Reg) : zero.get r = 0 := by
  cases r with
  | machine r => exact Vector.getElem_replicate r.index.isLt
  | rip => rfl
  | abstract n => simp [zero, get]

/-- A register that was set holds the word, and no other register changes. -/
theorem get_set (rs : Registers) (r q : Reg) (v : Int64) :
    (rs.set r v).get q = if r = q then v else rs.get q := by
  cases r with
  | machine r =>
    cases q with
    | machine q =>
      simp only [set, get, Reg.machine.injEq, ← MachineReg.index_inj, Fin.ext_iff]
      exact Vector.getElem_set r.index.isLt q.index.isLt
    | rip => simp [set, get]
    | abstract n => simp [set, get]
  | rip => cases q <;> simp [set, get]
  | abstract n =>
    cases q with
    | machine q => simp [set, get]
    | rip => simp [set, get]
    | abstract k => simp [set, get, Std.TreeMap.getD_insert]

end Registers

end X64Backend.Machine
