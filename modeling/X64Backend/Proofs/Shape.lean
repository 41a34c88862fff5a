import X64Backend.Proofs.Names
import X64Backend.Proofs.Outcome
import X64Backend.Asm.Registers

/-! # The shape of code

The forms that instructions have from selection to the finished code. Which registers they
name, and how far they reach from the frame pointer, the instruction pointer and the stack
pointer, differs from pass to pass and is left open; that no instruction has two words of
memory, where an immediate may stand and how large it may be does not.
-/

namespace X64Backend.Asm

open List

/-- What code of a shape may name: registers, displacements from the frame pointer and from
the instruction pointer, and distances by which the stack pointer moves. -/
structure Shape where
  reg : Reg → Prop
  frame : Int64 → Prop
  symbol : Const → Prop
  stack : Int64 → Prop

/-- The factors that an index can have. -/
def IsScale (s : Int64) : Prop := s = 1 ∨ s = 2 ∨ s = 4 ∨ s = 8

theorem isImm32_iff {v : Int64} :
    isImm32 v = true ↔ -(2 ^ 31) ≤ v.toInt ∧ v.toInt < 2 ^ 31 := by
  grind [isImm32, Int64.le_iff_toInt_le, Int64.lt_iff_toInt_lt]

theorem isImm32_ofNat {n : Nat} (h : n < 2 ^ 31) : isImm32 (Int64.ofNat n) = true := by
  rw [isImm32_iff, Int64.toInt_ofNat_of_lt (by omega)]
  omega

namespace Shape

section

variable (S : Shape)

/-- A word of memory: at a symbol, in the frame, or at a sum of registers. -/
inductive Word : Mem → Prop
  | symbol {c : Const} (h : S.symbol c) : Word ⟨some .rip, none, c⟩
  | frame {d : Int64} (h : S.frame d) : Word ⟨some .rbp, none, .imm d⟩
  | sum {base : Option Reg} {index : Option (Reg × Int64)} {d : Int64}
      (hbase : ∀ r, base = some r → S.reg r)
      (hindex : ∀ r s, index = some (r, s) → S.reg r ∧ IsScale s) (hd : isImm32 d = true) :
      Word ⟨base, index, .imm d⟩

/-- An operand that takes no memory. -/
inductive Value : Operand → Prop
  | imm {v : Int64} (h : isImm32 v = true) : Value (.imm v)
  | reg {r : Reg} (h : S.reg r) : Value (.reg r)

/-- An operand that can be written. -/
inductive Place : Operand → Prop
  | reg {r : Reg} (h : S.reg r) : Place (.reg r)
  | mem {m : Mem} (h : S.Word m) : Place (.mem m)

/-- An operand that can be read. -/
inductive Source : Operand → Prop
  | value {a : Operand} (h : S.Value a) : Source a
  | mem {m : Mem} (h : S.Word m) : Source (.mem m)

/-- Two operands of one instruction. The first can be written, and one of them at most is a
word of memory. -/
inductive Pair : Operand → Operand → Prop
  | reg {r : Reg} {s : Operand} (hr : S.reg r) (hs : S.Source s) : Pair (.reg r) s
  | mem {m : Mem} {s : Operand} (hm : S.Word m) (hs : S.Value s) : Pair (.mem m) s

/-- The instructions of a shape. Returns and pops belong to the frame and are none of them. -/
inductive Allows : Instr → Prop
  | movAbs {d : Reg} (v : Int64) (hd : S.reg d) : Allows (.movAbs d v)
  | mov {d s : Operand} (h : S.Pair d s) : Allows (.mov d s)
  | lea {d : Reg} {m : Mem} (hd : S.reg d) (hm : S.Word m) : Allows (.lea d m)
  | cmp {l r : Operand} (h : S.Pair l r) : Allows (.cmp l r)
  | set {c : Cond} (hc : c.name?.isSome = true) : Allows (.set c .rax)
  | jump {c : Cond} (l : Name) (hc : c.name?.isSome = true) : Allows (.jump c l)
  | callSymbol {n : Name} (hn : S.symbol (.sym n)) : Allows (.call (.const (.sym n)))
  | call {a : Operand} (h : S.Source a) : Allows (.call a)
  | stack {op : Arith} {v : Int64} (hop : op = .add ∨ op = .sub) (hv : S.stack v) :
      Allows (.arith op (.reg .rsp) (.imm v))
  | arith {op : Arith} {d s : Operand} (hop : op.name?.isSome = true) (h : S.Pair d s) :
      Allows (.arith op d s)
  | imul {d : Reg} {s : Operand} (hd : S.reg d) (hs : S.Place s) : Allows (.imul d s)
  | imul3 {d : Reg} {s : Operand} {k : Int64} (hd : S.reg d) (hs : S.Place s)
      (hk : isImm32 k = true) : Allows (.imul3 d s k)
  | cqo : Allows .cqo
  | idiv {a : Operand} (h : S.Place a) : Allows (.idiv a)
  | neg {a : Operand} (h : S.Place a) : Allows (.neg a)
  | shl {a : Operand} {k : Int64} (h : S.Place a) (hk : isImm32 k = true) : Allows (.shl a k)
  | push {a : Operand} (h : S.Source a) : Allows (.push a)
  | label (l : Name) : Allows (.label l)
  | comment (text : Bytes) : Allows (.comment text)

/-- Code of a shape. -/
def Code (code : List Instr) : Prop := ∀ x ∈ code, S.Allows x

/-- The shape with issued registers as well. -/
def issuing (p : Nat → Prop) : Shape :=
  { S with reg := fun r => S.reg r ∨ ∃ k, p k ∧ r = .issued k }

/-- The shape with a condition on its registers. -/
def having (p : Reg → Prop) : Shape := { S with reg := fun r => S.reg r ∧ p r }

/-- A shape within another one. -/
structure Le (S T : Shape) : Prop where
  reg {r : Reg} (h : S.reg r) : T.reg r
  frame {d : Int64} (h : S.frame d) : T.frame d
  symbol {c : Const} (h : S.symbol c) : T.symbol c
  stack {v : Int64} (h : S.stack v) : T.stack v

end

section

variable {S T : Shape} {a b : List Instr} {x : Instr}
variable {o d s : Operand}

@[simp] theorem code_nil : S.Code [] := fun _ h => absurd h not_mem_nil

@[simp] theorem code_cons : S.Code (x :: a) ↔ S.Allows x ∧ S.Code a := forall_mem_cons

@[simp] theorem code_append : S.Code (a ++ b) ↔ S.Code a ∧ S.Code b := forall_mem_append

theorem code_flatten {codes : List (List Instr)} (h : ∀ c ∈ codes, S.Code c) :
    S.Code codes.flatten := by
  intro x hx
  obtain ⟨c, hc, hx⟩ := mem_flatten.mp hx
  exact h c hc x hx

theorem Place.source (h : S.Place o) : S.Source o := by
  cases h with
  | reg h => exact .value (.reg h)
  | mem h => exact .mem h

theorem Place.pair_imm (h : S.Place o) {v : Int64} (hv : isImm32 v = true) : S.Pair o (.imm v) := by
  cases h with
  | reg h => exact .reg h (.value (.imm hv))
  | mem h => exact .mem h (.imm hv)

theorem Pair.place (h : S.Pair d s) : S.Place d := by
  cases h with
  | reg hr _ => exact .reg hr
  | mem hm _ => exact .mem hm

theorem Pair.source (h : S.Pair d s) : S.Source s := by
  cases h with
  | reg _ hs => exact hs
  | mem _ hs => exact .value hs

theorem Le.trans {U : Shape} (h : S.Le T) (h' : T.Le U) : S.Le U where
  reg hr := h'.reg (h.reg hr)
  frame hd := h'.frame (h.frame hd)
  symbol hc := h'.symbol (h.symbol hc)
  stack hv := h'.stack (h.stack hv)

section

variable {p : Reg → Prop} (h : (S.having p).Le T)

include h

theorem Word.imp {m : Mem} (hm : S.Word m) (hp : ∀ r ∈ m.namedRegs, p r) : T.Word m := by
  cases hm with
  | symbol hc => exact .symbol (h.symbol hc)
  | frame hd => exact .frame (h.frame hd)
  | sum hbase hindex hd =>
    refine .sum ?_ ?_ hd
    · rintro r rfl
      exact h.reg ⟨hbase r rfl, hp r (mem_append_left _ mem_cons_self)⟩
    · rintro r s rfl
      obtain ⟨hr, hs⟩ := hindex r s rfl
      exact ⟨h.reg ⟨hr, hp r (mem_append_right _ mem_cons_self)⟩, hs⟩

theorem Place.imp (ho : S.Place o) (hp : ∀ r ∈ o.namedRegs, p r) : T.Place o := by
  cases ho with
  | reg hr => exact .reg (h.reg ⟨hr, hp _ mem_cons_self⟩)
  | mem hm => exact .mem (hm.imp h hp)

theorem Value.imp (ho : S.Value o) (hp : ∀ r ∈ o.namedRegs, p r) : T.Value o := by
  cases ho with
  | imm hv => exact .imm hv
  | reg hr => exact .reg (h.reg ⟨hr, hp _ mem_cons_self⟩)

theorem Source.imp (ho : S.Source o) (hp : ∀ r ∈ o.namedRegs, p r) : T.Source o := by
  cases ho with
  | value hv => exact .value (hv.imp h hp)
  | mem hm => exact .mem (hm.imp h hp)

theorem Pair.imp (ho : S.Pair d s) (hp : ∀ r ∈ d.namedRegs ++ s.namedRegs, p r) : T.Pair d s := by
  obtain ⟨hpd, hps⟩ := forall_mem_append.mp hp
  cases ho with
  | reg hr hs => exact .reg (h.reg ⟨hr, hpd _ mem_cons_self⟩) (hs.imp h hps)
  | mem hm hs => exact .mem (hm.imp h hpd) (hs.imp h hps)

/-- An instruction is of another shape if that has the registers that the instruction names. -/
theorem Allows.imp (hx : S.Allows x) (hp : ∀ r ∈ x.namedRegs, p r) : T.Allows x := by
  cases hx with
  | movAbs v hd => exact .movAbs v (h.reg ⟨hd, hp _ mem_cons_self⟩)
  | mov ho => exact .mov (ho.imp h hp)
  | lea hd hm =>
    obtain ⟨hpd, hpm⟩ := forall_mem_cons.mp hp
    exact .lea (h.reg ⟨hd, hpd⟩) (hm.imp h hpm)
  | cmp ho => exact .cmp (ho.imp h hp)
  | callSymbol hn => exact .callSymbol (h.symbol hn)
  | call ho => exact .call (ho.imp h hp)
  | stack hop hv => exact .stack hop (h.stack hv)
  | arith hop ho => exact .arith hop (ho.imp h hp)
  | imul hd hs =>
    obtain ⟨hpd, hps⟩ := forall_mem_cons.mp hp
    exact .imul (h.reg ⟨hd, hpd⟩) (hs.imp h hps)
  | imul3 hd hs hk =>
    obtain ⟨hpd, hps⟩ := forall_mem_cons.mp hp
    exact .imul3 (h.reg ⟨hd, hpd⟩) (hs.imp h hps) hk
  | idiv ho => exact .idiv (ho.imp h hp)
  | neg ho => exact .neg (ho.imp h hp)
  | shl ho hk => exact .shl (ho.imp h hp) hk
  | push ho => exact .push (ho.imp h hp)
  | _ => constructor <;> assumption

end

theorem Allows.having {p : Reg → Prop} (hx : S.Allows x) (hp : ∀ r ∈ x.namedRegs, p r) :
    (S.having p).Allows x :=
  hx.imp ⟨id, id, id, id⟩ hp

theorem Le.having (h : S.Le T) (p : Reg → Prop) : (S.having p).Le T :=
  ⟨fun hr => h.reg hr.1, h.frame, h.symbol, h.stack⟩

theorem Source.mono (h : S.Le T) (ho : S.Source o) : T.Source o :=
  ho.imp (h.having fun _ => True) fun _ _ => trivial

theorem Allows.mono (h : S.Le T) (hx : S.Allows x) : T.Allows x :=
  hx.imp (h.having fun _ => True) fun _ _ => trivial

theorem Code.mono (h : S.Le T) (hcode : S.Code a) : T.Code a :=
  fun x hx => (hcode x hx).mono h

theorem le_issuing (S : Shape) (p : Nat → Prop) : S.Le (S.issuing p) where
  reg h := .inl h
  frame h := h
  symbol h := h
  stack h := h

theorem issuing_le {p q : Nat → Prop} (S : Shape) (h : ∀ k, p k → q k) :
    (S.issuing p).Le (S.issuing q) where
  reg hr := hr.imp_right fun ⟨k, hk, hr⟩ => ⟨k, h k hk, hr⟩
  frame h := h
  symbol h := h
  stack h := h

theorem Allows.copy {d s : Reg} (hd : S.reg d) (hs : S.reg s) : S.Allows (.copy d s) :=
  .mov (.reg hd (.value (.reg hs)))

theorem Allows.load {d : Reg} (hd : S.reg d) (v : Int64) : S.Allows (.load d v) := by
  unfold Instr.load
  split
  next hv => exact .mov (.reg hd (.value (.imm hv)))
  next => exact .movAbs v hd

end

end Shape

end X64Backend.Asm
