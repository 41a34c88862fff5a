import X64Backend.Alloc.Interference

/-! # Iterated coalescing

Registers are taken out of the interference graph one by one, those with few
neighbours first, and go on a stack from which they are coloured later. On the way
registers that only copy each other are merged where that cannot make the graph
harder to colour. Copies that cannot be merged yet wait until a neighbourhood gets
smaller; when nothing else is left, copies are given up, and at last a register
that may have to live in memory is taken out.
-/

namespace X64Backend.Alloc

open Asm Dataflow

/-- The machine registers to choose from, the preferred first. -/
def palette : List MachineReg :=
  [.rax, .rcx, .rdx, .rsi, .rdi, .r8, .r9, .r10, .r11, .rbx, .r12, .r13, .r14, .r15]

def paletteSize : Nat := palette.length

/-- The register that stands for a register after following its chain of merges. -/
def root (parent : Array Nat) : (fuel : Nat) → Nat → Nat
  | 0, n => n
  | fuel + 1, n =>
    let next := parent.getD n n
    if next = n then n else root parent fuel next

/-- A stage of the work. Registers in the graph wait on one of three lists: to be taken
out (`simplify`), to be taken out once their copies are given up (`freeze`), or with
too many neighbours (`spill`). Registers that left the graph are on the stack or
merged. Copies wait to be looked at (`ready`) or for smaller neighbourhoods
(`active`); all other copies are settled. -/
structure Worklist where
  edges : Array KeySet
  degree : Array Nat
  copyLists : Array KeySet
  simplify : KeySet
  freeze : KeySet
  spill : KeySet
  stack : List Nat
  selected : KeySet
  merged : KeySet
  parent : Array Nat
  ready : KeySet
  active : KeySet

namespace Worklist

def rootOf (w : Worklist) (n : Nat) : Nat := root w.parent w.parent.size n

/-- The neighbours of a register that are still in the graph. Of machine registers no
neighbours are kept. -/
def neighbours (w : Worklist) (n : Nat) : KeySet :=
  if Vars.isMachine n then .empty
  else ((w.edges.getD n .empty).diff w.selected).diff w.merged

def pending (w : Worklist) (n : Nat) : KeySet :=
  (w.copyLists.getD n .empty).inter (w.ready.union w.active)

def isCopyRelated (w : Worklist) (n : Nat) : Bool := !(w.pending n).isEmpty

/-- Whether a register has as many neighbours as there are machine registers to choose
from, or more. Machine registers count as such. -/
def isCrowded (w : Worklist) (n : Nat) : Bool :=
  Vars.isMachine n || paletteSize ≤ w.degree.getD n 0

def interfere (w : Worklist) (u v : Nat) : Bool := (w.edges.getD u .empty).contains v

/-- Puts a register on the list where it belongs. -/
def place (w : Worklist) (n : Nat) : Worklist :=
  if w.isCrowded n then { w with spill := w.spill.insert n }
  else if w.isCopyRelated n then { w with freeze := w.freeze.insert n }
  else { w with simplify := w.simplify.insert n }

/-- The first stage: all registers but the machine's are placed. -/
def start (g : Interference) : Worklist :=
  let w : Worklist := {
    edges := g.edges
    degree := g.edges.map KeySet.size
    copyLists := g.copyLists
    simplify := .empty
    freeze := .empty
    spill := .empty
    stack := []
    selected := .empty
    merged := .empty
    parent := Array.range g.size
    ready := .ofList (List.range g.copies.size)
    active := .empty }
  (List.range' Vars.machineCount (g.size - Vars.machineCount)).foldl place w

/-- Makes the waiting copies of a register ready again. -/
def enableCopies (w : Worklist) (n : Nat) : Worklist :=
  let cs := (w.copyLists.getD n .empty).inter w.active
  { w with ready := w.ready.union cs, active := w.active.diff cs }

/-- Counts one neighbour less. A register that is crowded no more leaves the list of the
crowded, and copies around it are worth another look. -/
def lowerDegree (w : Worklist) (n : Nat) : Worklist :=
  if Vars.isMachine n then w
  else
    let d := w.degree.getD n 0
    let w := { w with degree := w.degree.setIfInBounds n (d - 1) }
    if d ≠ paletteSize then w
    else
      let w := (w.neighbours n).toList.foldl enableCopies (w.enableCopies n)
      if w.spill.contains n then { w with spill := w.spill.erase n }.place n else w

/-- Takes a register out of the graph. -/
def select (w : Worklist) (n : Nat) : Worklist :=
  let w := { w with
    simplify := w.simplify.erase n
    selected := w.selected.insert n
    stack := n :: w.stack }
  (w.neighbours n).toList.foldl lowerDegree w

/-- Lets a register be taken out if only copies kept it from that and none are left. -/
def relax (w : Worklist) (n : Nat) : Worklist :=
  if !w.isCrowded n && !w.isCopyRelated n && w.freeze.contains n then
    { w with freeze := w.freeze.erase n, simplify := w.simplify.insert n }
  else w

/-- Counts one neighbour more. Machine registers do not count theirs. -/
def raiseDegree (w : Worklist) (n : Nat) : Worklist :=
  if Vars.isMachine n then w else { w with degree := w.degree.modify n (· + 1) }

def join (w : Worklist) (u v : Nat) : Worklist :=
  if u = v || w.interfere u v then w
  else ({ w with edges := joined w.edges u v }.raiseDegree u).raiseDegree v

/-- Merges a register into another. Its copies and its neighbours become those of the
other. -/
def merge (w : Worklist) (u v : Nat) : Worklist :=
  let w := { w with
    simplify := w.simplify.erase v
    freeze := w.freeze.erase v
    spill := w.spill.erase v
    merged := w.merged.insert v
    parent := w.parent.setIfInBounds v u
    copyLists := w.copyLists.modify u (·.union (w.copyLists.getD v .empty)) }
  let w := w.enableCopies v
  let w := (w.neighbours v).toList.foldl (fun w t => (w.join t u).lowerDegree t) w
  if w.freeze.contains u && w.isCrowded u then
    { w with freeze := w.freeze.erase u, spill := w.spill.insert u }
  else w

/-- Merging into a machine register is harmless if every neighbour either interferes
with it anyway or is not crowded. -/
def isHarmless (w : Worklist) (u v : Nat) : Bool :=
  (w.neighbours v).toList.all fun t =>
    Vars.isMachine t || w.degree.getD t 0 < paletteSize || w.interfere t u

/-- Merging is harmless if the two together have few crowded neighbours. -/
def isConservative (w : Worklist) (u v : Nat) : Bool :=
  (((w.neighbours u).union (w.neighbours v)).toList.filter w.isCrowded).length < paletteSize

def mayMerge (w : Worklist) (u v : Nat) : Bool :=
  if Vars.isMachine u then w.isHarmless u v else w.isConservative u v

/-- Looks at a copy: it is settled if its registers are merged or interfere, and waits
otherwise. -/
def coalesce (g : Interference) (w : Worklist) (id : Nat) : Worklist :=
  let w := { w with ready := w.ready.erase id }
  let c := g.copies.getD id default
  let x := w.rootOf c.dst
  let y := w.rootOf c.src
  let (u, v) := if Vars.isMachine y then (y, x) else (x, y)
  if u = v then w.relax u
  else if Vars.isMachine v || w.interfere u v then (w.relax u).relax v
  else if w.mayMerge u v then (w.merge u v).relax u
  else { w with active := w.active.insert id }

/-- Gives up a copy of a register; the register at its other end may be taken out if it
was the last. -/
def giveUp (g : Interference) (n : Nat) (w : Worklist) (id : Nat) : Worklist :=
  let c := g.copies.getD id default
  let s := w.rootOf c.src
  let other := if s = w.rootOf n then w.rootOf c.dst else s
  let w := { w with ready := w.ready.erase id, active := w.active.erase id }
  w.relax other

def giveUpAll (g : Interference) (w : Worklist) (n : Nat) : Worklist :=
  (w.pending n).toList.foldl (giveUp g n) w

/-- Lets a register be taken out without its copies. -/
def thaw (g : Interference) (w : Worklist) (n : Nat) : Worklist :=
  { w with freeze := w.freeze.erase n, simplify := w.simplify.insert n }.giveUpAll g n

/-- Whether one register costs less in memory than another: fewer accesses for each
neighbour. -/
def isCheaper (g : Interference) (w : Worklist) (a b : Nat) : Bool :=
  let cost (n : Nat) : Nat := g.weights.getD n 0
  let degree (n : Nat) : Nat := w.degree.getD n 0
  0 < degree a && (degree b = 0 || cost a * degree b < cost b * degree a)

/-- The cheapest register of a list, and of equally cheap ones the first. -/
def cheapest? (g : Interference) (w : Worklist) (ns : List Nat) : Option Nat :=
  ns.foldl (fun best n =>
    match best with
    | none => some n
    | some b => if w.isCheaper g n b then some n else some b) none

/-- Lets a crowded register be taken out, which may leave it without a colour. -/
def sacrifice (g : Interference) (w : Worklist) (n : Nat) : Worklist :=
  { w with spill := w.spill.erase n, simplify := w.simplify.insert n }.giveUpAll g n

/-- The next stage, unless all lists are empty. -/
def next? (g : Interference) (w : Worklist) : Option Worklist :=
  match w.simplify.first?, w.ready.first?, w.freeze.first?, w.cheapest? g w.spill.toList with
  | some n, _, _, _ => some (w.select n)
  | none, some id, _, _ => some (w.coalesce g id)
  | none, none, some n, _ => some (w.thaw g n)
  | none, none, none, some n => some (w.sacrifice g n)
  | none, none, none, none => none

/-- The last stage that is reached with some fuel. -/
def run (g : Interference) : (fuel : Nat) → Worklist → Worklist
  | 0, w => w
  | fuel + 1, w =>
    match w.next? g with
    | some w => run g fuel w
    | none => w

/-- Stages enough for all the work. Each register leaves the graph once; in between
every copy is looked at no more than once, and one list is changed for another. -/
def stages (g : Interference) : Nat := (g.size + 1) * (g.copies.size + 4)

def final (g : Interference) : Worklist := run g (stages g) (start g)

end Worklist

end X64Backend.Alloc
