import Mathlib.Algebra.Order.Ring.Nat
import X64Backend.Select.Body

/-! # How tiles are put together

The shapes that selection gives to tiles, said without the memo and without costs:
which parts an address has, which operands an expression becomes, and which code is
put behind them. A property of tiles that each of these shapes keeps holds of every
tile that is ever selected.
-/

namespace X64Backend.Select

open Asm Code

/-- The expression that each issued register was issued for. -/
abbrev Owner := Nat → Option Expr

/-- One more register has been issued, or some, and none for another expression. -/
def Owner.Within (own own' : Owner) : Prop := ∀ k e, own k = some e → own' k = some e

namespace Owner

theorem Within.refl (own : Owner) : own.Within own := fun _ _ h => h

theorem Within.trans {a b c : Owner} (hab : a.Within b) (hbc : b.Within c) : a.Within c :=
  fun k e h => hbc k e (hab k e h)

/-- The register `k` issued for an expression. -/
def give (own : Owner) (k : Nat) (e : Expr) : Owner := fun j => if j = k then some e else own j

@[simp] theorem give_self (own : Owner) (k : Nat) (e : Expr) : own.give k e k = some e := by
  simp [give]

theorem within_give {own : Owner} {k : Nat} (e : Expr) (h : own k = none) :
    own.Within (own.give k e) := by
  intro j f hj
  have hne : j ≠ k := by
    rintro rfl
    rw [h] at hj
    cases hj
  rw [give, if_neg hne, hj]

end Owner

/-- A constant that an operation adds to its left operand, or takes away from it. -/
inductive Displaces : Op → Int64 → Int64 → Prop
  | add {c : Int64} (h : isImm32 c = true) : Displaces .add c c
  | sub {c : Int64} (h : isImm32 c = true) (hneg : isImm32 (-c) = true) : Displaces .sub c (-c)

/-- An expression as the sum of a base, an index and a displacement. -/
inductive Sum : Expr → Option Expr → Option Expr → Int64 → Prop
  | const {c : Int64} (h : isImm32 c = true) : Sum (.const c) none none c
  | base (e : Expr) : Sum e (some e) none 0
  | index (e : Expr) : Sum e none (some e) 0
  | disp {op : Op} {l : Expr} {b i : Option Expr} {c d : Int64} (h : Displaces op c d)
      (hl : Sum l b i 0) : Sum (.binary op l (.const c)) b i d
  | left {x y : Expr} {b i : Option Expr} {d e : Int64} (hx : Sum x b none d)
      (hy : Sum y none i e) (hzero : d = 0 ∨ e = 0) : Sum (.binary .add x y) b i (d + e)
  | right {x y : Expr} {b i : Option Expr} {d e : Int64} (hx : Sum x none i d)
      (hy : Sum y b none e) (hzero : d = 0 ∨ e = 0) : Sum (.binary .add x y) b i (d + e)

section

variable (P : Owner → Expr → Tile Reg → Prop) (own : Owner)

/-- A scaled register for an expression. -/
inductive IsScaled : Expr → Tile Scaled → Prop
  | temp (n : Name) : IsScaled (.temp n) ⟨[], (.ofName n, 1)⟩
  | product {l : Expr} {t : Tile Reg} {c : Int64} (hl : P own l t)
      (hc : c = 1 ∨ c = 2 ∨ c = 4 ∨ c = 8) :
      IsScaled (.binary .mul l (.const c)) ⟨t.code, (t.result, c)⟩

/-- A base register for the base of an address. -/
inductive IsBase : Option Expr → Tile (Option Reg) → Prop
  | none : IsBase none ⟨[], none⟩
  | some {e : Expr} {t : Tile Reg} (h : P own e t) : IsBase (some e) ⟨t.code, Mem.baseOf t.result⟩

/-- A scaled register for the index of an address. -/
inductive IsIndex : Option Expr → Tile (Option Scaled) → Prop
  | none : IsIndex none ⟨[], none⟩
  | some {e : Expr} {t : Tile Scaled} (h : IsScaled P own e t) :
      IsIndex (some e) ⟨t.code, some t.result⟩

/-- A memory operand whose address is the value of an expression. -/
inductive IsAddress : Expr → Tile Mem → Prop
  | symbol (n : Name) {code : List Instr} (hcode : ∀ x ∈ code, ∃ text, x = .comment text) :
      IsAddress (.name n) ⟨code, .atSymbol n⟩
  | sum {e : Expr} {b i : Option Expr} {d : Int64} {base : Tile (Option Reg)}
      {index : Tile (Option Scaled)} (hsum : Sum e b i d) (hbase : IsBase P own b base)
      (hindex : IsIndex P own i index) :
      IsAddress e ⟨index.code ++ base.code, ⟨base.result, index.result, .imm d⟩⟩

/-- A register or a word of memory that holds the value of an expression. -/
inductive IsPlace : Expr → Tile Operand → Prop
  | reg {e : Expr} {t : Tile Reg} (h : P own e t) : IsPlace e ⟨t.code, .reg t.result⟩
  | mem {a : Expr} {m : Tile Mem} (h : IsAddress P own a m) :
      IsPlace (.mem a) ⟨m.code, .mem m.result⟩

/-- A small constant, or a place. -/
inductive IsOperand : Expr → Tile Operand → Prop
  | imm {c : Int64} (h : isImm32 c = true) : IsOperand (.const c) ⟨[], .imm c⟩
  | place {e : Expr} {t : Tile Operand} (h : IsPlace P own e t) : IsOperand e t

/-- A small constant, or a register. -/
inductive IsImmOrReg : Expr → Tile Operand → Prop
  | imm {c : Int64} (h : isImm32 c = true) : IsImmOrReg (.const c) ⟨[], .imm c⟩
  | reg {e : Expr} {t : Tile Reg} (h : P own e t) : IsImmOrReg e ⟨t.code, .reg t.result⟩

end

section

variable {P Q : Owner → Expr → Tile Reg → Prop} {own own' : Owner}
variable (hP : ∀ {e t}, P own e t → Q own' e t)
variable {e : Expr} {t : Tile Operand}

include hP

theorem IsScaled.mono {t : Tile Scaled} (h : IsScaled P own e t) : IsScaled Q own' e t := by
  cases h with
  | temp n => exact .temp n
  | product hl hc => exact .product (hP hl) hc

theorem IsBase.mono {b : Option Expr} {t : Tile (Option Reg)} (h : IsBase P own b t) :
    IsBase Q own' b t := by
  cases h with
  | none => exact .none
  | some h => exact .some (hP h)

theorem IsIndex.mono {i : Option Expr} {t : Tile (Option Scaled)} (h : IsIndex P own i t) :
    IsIndex Q own' i t := by
  cases h with
  | none => exact .none
  | some h => exact .some (h.mono hP)

theorem IsAddress.mono {m : Tile Mem} (h : IsAddress P own e m) : IsAddress Q own' e m := by
  cases h with
  | symbol n hcode => exact .symbol n hcode
  | sum hsum hbase hindex => exact .sum hsum (hbase.mono hP) (hindex.mono hP)

theorem IsPlace.mono (h : IsPlace P own e t) : IsPlace Q own' e t := by
  cases h with
  | reg h => exact .reg (hP h)
  | mem h => exact .mem (h.mono hP)

theorem IsOperand.mono (h : IsOperand P own e t) : IsOperand Q own' e t := by
  cases h with
  | imm h => exact .imm h
  | place h => exact .place (h.mono hP)

theorem IsImmOrReg.mono (h : IsImmOrReg P own e t) : IsImmOrReg Q own' e t := by
  cases h with
  | imm h => exact .imm h
  | reg h => exact .reg (hP h)

end

/-- A property of tiles that every shape of a tile keeps. -/
structure Rules (P : Owner → Expr → Tile Reg → Prop) : Prop where
  mono {own own' : Owner} {e : Expr} {t : Tile Reg} (hown : own.Within own') (h : P own e t) :
    P own' e t
  const {own : Owner} {k : Nat} {v : Int64} (hk : own k = some (.const v)) :
    P own (.const v) ⟨[.load (.issued k) v], .issued k⟩
  name {own : Owner} {k : Nat} {n : Name} (hk : own k = some (.name n)) :
    P own (.name n) ⟨[.lea (.issued k) (.atSymbol n)], .issued k⟩
  temp {own : Owner} {n : Name} : P own (.temp n) ⟨[], .ofName n⟩
  mem {own : Owner} {k : Nat} {a : Expr} {m : Tile Mem} {text : Bytes}
    (hk : own k = some (.mem a)) (hm : IsAddress P own a m) :
    P own (.mem a)
      ⟨.comment text :: m.code ++ [.mov (.reg (.issued k)) (.mem m.result)], .issued k⟩
  generic {own : Owner} {k : Nat} {op : Op} {l r : Expr} {x y : Tile Operand}
    {tail : List Instr} {text : Bytes} (hk : own k = some (.binary op l r))
    (hx : IsOperand P own l x) (hy : IsPlace P own r y)
    (htail : combine? op (.issued k) x.result y.result = some tail) :
    P own (.binary op l r) ⟨.comment text :: x.code ++ y.code ++ tail, .issued k⟩
  commutative {own : Owner} {k : Nat} {op : Op} {l r : Expr} {y : Tile Reg} {x : Tile Operand}
    {tail : List Instr} {text : Bytes} (hk : own k = some (.binary op l r))
    (hop : op.isCommutative = true) (hy : P own r y) (hx : IsPlace P own l x)
    (htail : combine? op (.issued k) (.reg y.result) x.result = some tail) :
    P own (.binary op l r) ⟨.comment text :: y.code ++ x.code ++ tail, .issued k⟩
  compare {own : Owner} {k : Nat} {op : Op} {c : Cond} {l r : Expr} {x y : Tile Reg}
    {text : Bytes} (hk : own k = some (.binary op l r)) (hop : cond? op = some c)
    (hx : P own l x) (hy : P own r y) :
    P own (.binary op l r) ⟨.comment text :: x.code ++ y.code ++
      [.cmp (.reg x.result) (.reg y.result), .set c .rax, .copy (.issued k) .rax], .issued k⟩
  lea {own : Owner} {k : Nat} {e : Expr} {m : Tile Mem} {text : Bytes} (hk : own k = some e)
    (hm : IsAddress P own e m) :
    P own e ⟨.comment text :: m.code ++ [.lea (.issued k) m.result], .issued k⟩
  imul3 {own : Owner} {k : Nat} {l : Expr} {c : Int64} {x : Tile Operand} {text : Bytes}
    (hk : own k = some (.binary .mul l (.const c))) (hc : isImm32 c = true)
    (hx : IsPlace P own l x) :
    P own (.binary .mul l (.const c))
      ⟨.comment text :: x.code ++ [.imul3 (.issued k) x.result c], .issued k⟩
  shl {own : Owner} {k j : Nat} {l : Expr} {c : Int64} {x : Tile Operand} {text : Bytes}
    (hk : own k = some (.binary .mul l (.const c))) (hc : exponent? c = some j)
    (hx : IsOperand P own l x) :
    P own (.binary .mul l (.const c)) ⟨.comment text :: x.code ++
      [.mov (.reg (.issued k)) x.result, .shl (.reg (.issued k)) (Int64.ofNat j)], .issued k⟩

/-- Properties that are each kept are kept together. -/
theorem Rules.all {ι : Type} {P : ι → Owner → Expr → Tile Reg → Prop} (h : ∀ i, Rules (P i)) :
    Rules fun own e t => ∀ i, P i own e t where
  mono hown ht i := (h i).mono hown (ht i)
  const hk i := (h i).const hk
  name hk i := (h i).name hk
  temp i := (h i).temp
  mem hk hm i := (h i).mem hk (hm.mono fun ht => ht i)
  generic hk hx hy htail i :=
    (h i).generic hk (hx.mono fun ht => ht i) (hy.mono fun ht => ht i) htail
  commutative hk hop hy hx htail i :=
    (h i).commutative hk hop (hy i) (hx.mono fun ht => ht i) htail
  compare hk hop hx hy i := (h i).compare hk hop (hx i) (hy i)
  lea hk hm i := (h i).lea hk (hm.mono fun ht => ht i)
  imul3 hk hc hx i := (h i).imul3 hk hc (hx.mono fun ht => ht i)
  shl hk hc hx i := (h i).shl hk hc (hx.mono fun ht => ht i)

section

variable (P : Owner → Expr → Tile Reg → Prop) (own : Owner)

/-- What a call goes to: a symbol, or the value of an operand. -/
inductive IsCallee : Expr → Tile Operand → Prop
  | symbol (n : Name) : IsCallee (.name n) ⟨[], .const (.ofName n)⟩
  | operand {e : Expr} {t : Tile Operand} (hname : ∀ n, e ≠ .name n) (h : IsOperand P own e t) :
      IsCallee e t

/-- The operands of a call's arguments, and the code before them. -/
inductive IsArgs : List Expr → List Instr → List Operand → Prop
  | nil : IsArgs [] [] []
  | cons {a : Expr} {rest : List Expr} {t : Tile Operand} {code : List Instr}
      {operands : List Operand} (h : IsOperand P own a t) (hrest : IsArgs rest code operands) :
      IsArgs (a :: rest) (t.code ++ code) (t.result :: operands)

variable (func : Name)

/-- The code that a statement of a function becomes. -/
inductive StmtCode : Stmt Expr → List Instr → Prop
  | move (dest : Name) {src : Expr} {t : Tile Operand} (h : IsOperand P own src t) :
      StmtCode (.move dest src) (t.code ++ [.mov (.reg (.ofName dest)) t.result])
  | store {a src : Expr} {m : Tile Mem} {t : Tile Operand} (hm : IsAddress P own a m)
      (h : IsImmOrReg P own src t) :
      StmtCode (.store a src) (m.code ++ t.code ++ [.mov (.mem m.result) t.result])
  | call {f : Expr} {args : List Expr} (result : Option Name) {target : Tile Operand}
      {code : List Instr} {operands : List Operand} {before calling called : Bytes}
      (htarget : IsCallee P own f target) (hargs : IsArgs P own args code operands) :
      StmtCode (.call f args result) (.comment before :: target.code ++ code ++
        .comment calling :: callCode target.result operands result ++ [.comment called])
  | jump (l : Name) : StmtCode (.jump l) [.jump .jmp l]
  | label (l : Name) : StmtCode (.label l) [.label l]
  | compare {op : Op} {c : Cond} {l r : Expr} {x : Tile Reg} {y : Tile Operand} {text : Bytes}
      (target : Name) (hop : cond? op = some c) (hx : P own l x) (hy : IsImmOrReg P own r y) :
      StmtCode (.branch (.binary op l r) target) (.comment text :: x.code ++ y.code ++
        [.cmp (.reg x.result) y.result, .jump c target])
  | test {cond : Expr} {x : Tile Operand} {text : Bytes} (target : Name)
      (hx : IsPlace P own cond x) :
      StmtCode (.branch cond target) (.comment text :: x.code ++
        [.cmp x.result (.imm 0), .jump .jnz target])
  | leave {text : Bytes} :
      StmtCode (.ret none) [.comment text, .jump .jmp (epilogueLabel func)]
  | ret {v : Expr} {t : Tile Operand} {text : Bytes} (h : IsOperand P own v t) :
      StmtCode (.ret (some v)) (.comment text :: (t.code ++ [.mov (.reg .rax) t.result]) ++
        [.jump .jmp (epilogueLabel func)])

end

theorem IsArgs.length_eq {P : Owner → Expr → Tile Reg → Prop} {own : Owner} {args : List Expr}
    {code : List Instr} {operands : List Operand} (h : IsArgs P own args code operands) :
    operands.length = args.length := by
  induction h with
  | nil => rfl
  | cons _ _ ih => rw [List.length_cons, List.length_cons, ih]

section

variable {P Q : Owner → Expr → Tile Reg → Prop} {own own' : Owner}
variable (hP : ∀ {e t}, P own e t → Q own' e t)

include hP

theorem IsCallee.mono {e : Expr} {t : Tile Operand} (h : IsCallee P own e t) :
    IsCallee Q own' e t := by
  cases h with
  | symbol n => exact .symbol n
  | operand hname h => exact .operand hname (h.mono hP)

theorem IsArgs.mono {args : List Expr} {code : List Instr} {operands : List Operand}
    (h : IsArgs P own args code operands) : IsArgs Q own' args code operands := by
  induction h with
  | nil => exact .nil
  | cons h _ ih => exact .cons (h.mono hP) ih

theorem StmtCode.mono {func : Name} {s : Stmt Expr} {code : List Instr}
    (h : StmtCode P own func s code) : StmtCode Q own' func s code := by
  cases h with
  | move dest h => exact .move dest (h.mono hP)
  | store hm h => exact .store (hm.mono hP) (h.mono hP)
  | call result htarget hargs => exact .call result (htarget.mono hP) (hargs.mono hP)
  | jump l => exact .jump l
  | label l => exact .label l
  | compare target hop hx hy => exact .compare target hop (hP hx) (hy.mono hP)
  | test target hx => exact .test target (hx.mono hP)
  | leave => exact .leave
  | ret h => exact .ret (h.mono hP)

end

end X64Backend.Select
