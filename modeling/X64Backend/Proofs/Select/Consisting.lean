import X64Backend.Proofs.Select.Rules

/-! # What tiles consist of

A property that every instruction has which puts tiles together holds of all instructions
of all tiles, and of the code before the operands that are made from them.
-/

namespace X64Backend.Select

open Asm Code List

/-- Tiles whose instructions have a property. -/
def Consists (Q : Instr → Prop) (_ : Owner) (_ : Expr) (t : Tile Reg) : Prop :=
  ∀ x ∈ t.code, Q x

/-- A property of the instructions that put tiles together. They write issued registers, and
divide in the machine's own. -/
structure Computing (Q : Instr → Prop) : Prop where
  comment (text : Bytes) : Q (.comment text)
  movAbs (k : Nat) (v : Int64) : Q (.movAbs (.issued k) v)
  mov (k : Nat) (s : Operand) : Q (.mov (.reg (.issued k)) s)
  lea (k : Nat) (m : Mem) : Q (.lea (.issued k) m)
  cmp (l r : Operand) : Q (.cmp l r)
  set (c : Cond) : Q (.set c .rax)
  arith (op : Arith) (k : Nat) (s : Operand) : Q (.arith op (.reg (.issued k)) s)
  imul (k : Nat) (s : Operand) : Q (.imul (.issued k) s)
  imul3 (k : Nat) (s : Operand) (c : Int64) : Q (.imul3 (.issued k) s c)
  shl (k : Nat) (c : Int64) : Q (.shl (.reg (.issued k)) c)
  dividend (s : Operand) : Q (.mov (.reg .rax) s)
  cqo : Q .cqo
  idiv (a : Operand) : Q (.idiv a)

section

variable {Q : Instr → Prop} {own : Owner} {e : Expr}
variable {t : Tile Operand}

theorem IsScaled.forall_code {t : Tile Scaled} (h : IsScaled (Consists Q) own e t) :
    ∀ x ∈ t.code, Q x := by
  cases h with
  | temp n => exact fun x hx => absurd hx not_mem_nil
  | product hl hc => exact hl

theorem IsBase.forall_code {b : Option Expr} {t : Tile (Option Reg)}
    (h : IsBase (Consists Q) own b t) : ∀ x ∈ t.code, Q x := by
  cases h with
  | none => exact fun x hx => absurd hx not_mem_nil
  | some h => exact h

theorem IsIndex.forall_code {i : Option Expr} {t : Tile (Option Scaled)}
    (h : IsIndex (Consists Q) own i t) : ∀ x ∈ t.code, Q x := by
  cases h with
  | none => exact fun x hx => absurd hx not_mem_nil
  | some h => exact h.forall_code

variable (hQ : Computing Q)

include hQ

theorem IsAddress.forall_code {m : Tile Mem} (h : IsAddress (Consists Q) own e m) :
    ∀ x ∈ m.code, Q x := by
  cases h with
  | symbol n hcode =>
    intro x hx
    obtain ⟨text, rfl⟩ := hcode x hx
    exact hQ.comment text
  | sum hsum hbase hindex =>
    exact forall_mem_append.mpr ⟨hindex.forall_code, hbase.forall_code⟩

theorem IsPlace.forall_code (h : IsPlace (Consists Q) own e t) : ∀ x ∈ t.code, Q x := by
  cases h with
  | reg h => exact h
  | mem h => exact h.forall_code hQ

theorem IsOperand.forall_code (h : IsOperand (Consists Q) own e t) : ∀ x ∈ t.code, Q x := by
  cases h with
  | imm h => exact fun x hx => absurd hx not_mem_nil
  | place h => exact h.forall_code hQ

omit hQ in
theorem IsImmOrReg.forall_code (h : IsImmOrReg (Consists Q) own e t) : ∀ x ∈ t.code, Q x := by
  cases h with
  | imm h => exact fun x hx => absurd hx not_mem_nil
  | reg h => exact h

theorem IsCallee.forall_code (h : IsCallee (Consists Q) own e t) : ∀ x ∈ t.code, Q x := by
  cases h with
  | symbol n => exact fun x hx => absurd hx not_mem_nil
  | operand _ h => exact h.forall_code hQ

theorem IsArgs.forall_code {args : List Expr} {code : List Instr} {operands : List Operand}
    (h : IsArgs (Consists Q) own args code operands) : ∀ x ∈ code, Q x := by
  induction h with
  | nil => exact fun x hx => absurd hx not_mem_nil
  | cons h _ ih => exact forall_mem_append.mpr ⟨h.forall_code hQ, ih⟩

theorem Computing.load (k : Nat) (v : Int64) : Q (.load (.issued k) v) := by
  unfold Instr.load
  split
  · exact hQ.mov k _
  · exact hQ.movAbs k v

theorem Computing.combine? {op : Op} {k : Nat} {x y : Operand} {tail : List Instr}
    (h : combine? op (.issued k) x y = some tail) : ∀ z ∈ tail, Q z := by
  have hdivide (q : Reg) :
      ∀ z ∈ [Instr.mov (.reg .rax) x, .cqo, .idiv y, .copy (.issued k) q], Q z := by
    simp only [forall_mem_cons, not_mem_nil, false_implies, implies_true, and_true]
    exact ⟨hQ.dividend x, hQ.cqo, hQ.idiv y, hQ.mov k _⟩
  have harith (a : Arith) :
      ∀ z ∈ [Instr.mov (.reg (.issued k)) x, .arith a (.reg (.issued k)) y], Q z := by
    grind [hQ.mov, hQ.arith]
  cases op <;>
    simp only [Select.combine?, arith?, Option.map_some, reduceCtorEq, Option.some.injEq] at h <;>
    subst h
  case mul =>
    simp only [forall_mem_cons, not_mem_nil, false_implies, implies_true, and_true]
    exact ⟨hQ.mov k x, hQ.imul k y⟩
  case div => exact hdivide .rax
  case mod => exact hdivide .rdx
  all_goals exact harith _

/-- Every tile consists of such instructions. -/
theorem Computing.rules : Rules (Consists Q) where
  mono _ h := h
  const {own k v} _ := by
    intro x hx
    rw [mem_singleton.mp hx]
    exact hQ.load k v
  name {own k n} _ := by
    intro x hx
    rw [mem_singleton.mp hx]
    exact hQ.lea k _
  temp := fun x hx => absurd hx not_mem_nil
  mem {own k a m text} _ hm := by
    grind [Consists, hQ.comment, hm.forall_code, hQ.mov]
  generic {own k op l r x y tail text} _ hx hy htail := by
    grind [Consists, hQ.comment, hx.forall_code, hy.forall_code, hQ.combine?]
  commutative {own k op l r y x tail text} _ _ hy hx htail := by
    grind [Consists, hQ.comment, hx.forall_code, hQ.combine?]
  compare {own k op c l r x y text} _ _ hx hy := by
    simp only [Consists, forall_mem_append, forall_mem_cons, not_mem_nil,
      false_implies, implies_true, and_true]
    exact ⟨⟨⟨hQ.comment text, hx⟩, hy⟩, hQ.cmp _ _, hQ.set c, hQ.mov k _⟩
  lea {own k e m text} _ hm := by
    grind [Consists, hQ.comment, hm.forall_code, hQ.lea]
  imul3 {own k l c x text} _ _ hx := by
    grind [Consists, hQ.comment, hx.forall_code, hQ.imul3]
  shl {own k j l c x text} _ _ hx := by
    grind [Consists, hQ.comment, hx.forall_code, hQ.mov, hQ.shl]

end

end X64Backend.Select
