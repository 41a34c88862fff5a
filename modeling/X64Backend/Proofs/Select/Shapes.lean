import X64Backend.Proofs.Select.Induction
import X64Backend.Proofs.Shape

/-! # The shape of selected code

Whatever tiles selection chooses, its code has a shape: it names machine registers other
than the frame and stack pointers, issued registers and those of the body's temporaries.
-/

namespace X64Backend.Select

open Asm Code List

variable {S : Shape}

/-- The machine registers that code may work on have the shape. -/
def WorksOnMachine (S : Shape) : Prop :=
  ∀ r : MachineReg, r ≠ .rsp → r ≠ .rbp → S.reg (.machine r)

/-- The registers that division and comparison work in have the shape. -/
def Divides (S : Shape) : Prop := S.reg .rax ∧ S.reg .rdx

theorem WorksOnMachine.divides (h : WorksOnMachine S) : Divides S :=
  ⟨h .rax (by decide) (by decide), h .rdx (by decide) (by decide)⟩

/-- The temporaries and symbols of an expression have the shape. -/
def Admits (S : Shape) : Expr → Prop
  | .const _ | .absent => True
  | .name n => S.symbol (.ofName n)
  | .temp n => S.reg (.ofName n)
  | .mem a => Admits S a
  | .binary _ l r => Admits S l ∧ Admits S r

/-- The names of a statement have the shape, and so has the room for the arguments of a
call. -/
def AdmitsStmt (S : Shape) : Stmt Expr → Prop
  | .move dest src => S.reg (.ofName dest) ∧ Admits S src
  | .store a src => Admits S a ∧ Admits S src
  | .call f args result => Admits S f ∧ (∀ a ∈ args, Admits S a) ∧
      (∀ n, result = some n → S.reg (.ofName n)) ∧ S.stack 8 ∧
      S.stack (8 * Int64.ofNat (stackWords args.length))
  | .branch cond _ => Admits S cond
  | .ret (some v) => Admits S v
  | .jump _ | .label _ | .ret none | .absent => True

theorem admits_of_mem_nodes {s : Stmt Node} (h : AdmitsStmt S (s.map Node.expr)) {n : Node}
    (hn : n ∈ nodes s) : Admits S n.expr := by
  cases s with
  | move dest src =>
    obtain rfl := mem_singleton.mp hn
    exact h.2
  | store a src =>
    rcases mem_cons.mp hn with rfl | hn
    · exact h.1
    · obtain rfl := mem_singleton.mp hn
      exact h.2
  | call f args result =>
    rcases mem_cons.mp hn with rfl | hn
    · exact h.1
    · exact h.2.1 _ (mem_map_of_mem hn)
  | branch cond target =>
    obtain rfl := mem_singleton.mp hn
    exact h
  | ret value =>
    cases value with
    | none => cases hn
    | some v =>
      obtain rfl := mem_singleton.mp hn
      exact h
  | jump l | label l | absent => cases hn

/-- The shape with the registers that were issued. -/
abbrev issuedTo (S : Shape) (own : Owner) : Shape := S.issuing fun k => (own k).isSome = true

/-- A tile of a shape, if its expression has it. -/
def Shaped (S : Shape) (own : Owner) (e : Expr) (t : Tile Reg) : Prop :=
  Admits S e → (issuedTo S own).Code t.code ∧ (issuedTo S own).reg t.result

/-- The parts of a sum have the shape that it has, and its displacement is small. -/
theorem Sum.parts {e : Expr} {b i : Option Expr} {d : Int64} (h : Sum e b i d) (he : Admits S e) :
    (∀ x, b = some x → Admits S x) ∧ (∀ x, i = some x → Admits S x) ∧ isImm32 d = true := by
  have hsum {d d' : Int64} (hd : isImm32 d = true) (hd' : isImm32 d' = true)
      (hzero : d = 0 ∨ d' = 0) : isImm32 (d + d') = true := by
    rcases hzero with rfl | rfl
    · rwa [Int64.zero_add]
    · rwa [Int64.add_zero]
  induction h with
  | const hc => exact ⟨fun _ => nofun, fun _ => nofun, hc⟩
  | base e =>
    refine ⟨?_, fun _ => nofun, rfl⟩
    rintro _ ⟨⟩
    exact he
  | index e =>
    refine ⟨fun _ => nofun, ?_, rfl⟩
    rintro _ ⟨⟩
    exact he
  | disp hd _ ih =>
    obtain ⟨hb, hi, _⟩ := ih he.1
    refine ⟨hb, hi, ?_⟩
    cases hd with
    | add hc => exact hc
    | sub _ hneg => exact hneg
  | left _ _ hzero ihx ihy =>
    obtain ⟨hb, _, hd⟩ := ihx he.1
    obtain ⟨_, hi, hd'⟩ := ihy he.2
    exact ⟨hb, hi, hsum hd hd' hzero⟩
  | right _ _ hzero ihx ihy =>
    obtain ⟨_, hi, hd⟩ := ihx he.1
    obtain ⟨hb, _, hd'⟩ := ihy he.2
    exact ⟨hb, hi, hsum hd hd' hzero⟩

section

variable {S : Shape} {own : Owner} {e : Expr}
variable {t : Tile Operand}

theorem IsScaled.shape {t : Tile Scaled} (h : IsScaled (Shaped S) own e t) (he : Admits S e) :
    (issuedTo S own).Code t.code ∧ (issuedTo S own).reg t.result.1 ∧ IsScale t.result.2 := by
  cases h with
  | temp n => exact ⟨Shape.code_nil, .inl he, .inl rfl⟩
  | product hl hc =>
    obtain ⟨hcode, hreg⟩ := hl he.1
    exact ⟨hcode, hreg, hc⟩

theorem IsAddress.shape {m : Tile Mem} (h : IsAddress (Shaped S) own e m) (he : Admits S e) :
    (issuedTo S own).Code m.code ∧ (issuedTo S own).Word m.result := by
  cases h with
  | symbol n hcode =>
    refine ⟨?_, .symbol he⟩
    intro x hx
    obtain ⟨text, rfl⟩ := hcode x hx
    exact .comment text
  | @sum _ b i d base index hsum hbase hindex =>
    obtain ⟨hb, hi, hd⟩ := hsum.parts he
    have hbase : (issuedTo S own).Code base.code ∧
        ∀ r, base.result = some r → (issuedTo S own).reg r := by
      cases hbase with
      | none => exact ⟨Shape.code_nil, fun _ => nofun⟩
      | @some e t ht =>
        obtain ⟨hcode, hreg⟩ := ht (hb e rfl)
        refine ⟨hcode, ?_⟩
        intro r hr
        simp only [Mem.baseOf] at hr
        split at hr
        · cases hr
        · cases hr
          exact hreg
    have hindex : (issuedTo S own).Code index.code ∧
        ∀ r s, index.result = some (r, s) → (issuedTo S own).reg r ∧ IsScale s := by
      cases hindex with
      | none => exact ⟨Shape.code_nil, fun _ _ => nofun⟩
      | @some e t ht =>
        obtain ⟨hcode, hscaled⟩ := ht.shape (hi e rfl)
        refine ⟨hcode, ?_⟩
        intro r s hrs
        rw [Option.some.inj hrs] at hscaled
        exact hscaled
    exact ⟨Shape.code_append.mpr ⟨hindex.1, hbase.1⟩, .sum hbase.2 hindex.2 hd⟩

theorem IsPlace.shape (h : IsPlace (Shaped S) own e t) (he : Admits S e) :
    (issuedTo S own).Code t.code ∧ (issuedTo S own).Place t.result := by
  cases h with
  | reg h => exact ⟨(h he).1, .reg (h he).2⟩
  | mem h => exact ⟨(h.shape he).1, .mem (h.shape he).2⟩

theorem IsOperand.shape (h : IsOperand (Shaped S) own e t) (he : Admits S e) :
    (issuedTo S own).Code t.code ∧ (issuedTo S own).Source t.result := by
  cases h with
  | imm hc => exact ⟨Shape.code_nil, .value (.imm hc)⟩
  | place h => exact ⟨(h.shape he).1, (h.shape he).2.source⟩

theorem IsImmOrReg.shape (h : IsImmOrReg (Shaped S) own e t) (he : Admits S e) :
    (issuedTo S own).Code t.code ∧ (issuedTo S own).Value t.result := by
  cases h with
  | imm hc => exact ⟨Shape.code_nil, .imm hc⟩
  | reg h => exact ⟨(h he).1, .reg (h he).2⟩

theorem IsCallee.shape (h : IsCallee (Shaped S) own e t) (he : Admits S e) :
    (issuedTo S own).Code t.code ∧ (issuedTo S own).Allows (.call t.result) := by
  cases h with
  | symbol n =>
    refine ⟨Shape.code_nil, ?_⟩
    change S.symbol (.ofName n) at he
    simp only [Const.ofName] at he ⊢
    split
    · exact .call (.value (.imm rfl))
    next hn => exact .callSymbol (by rwa [if_neg hn] at he)
  | operand _ h => exact ⟨(h.shape he).1, .call (h.shape he).2⟩

theorem IsArgs.shape {args : List Expr} {code : List Instr}
    {operands : List Operand} (h : IsArgs (Shaped S) own args code operands)
    (hargs : ∀ a ∈ args, Admits S a) : (issuedTo S own).Code code ∧
      operands.length = args.length ∧ ∀ a ∈ operands, (issuedTo S own).Source a := by
  induction h with
  | nil => exact ⟨Shape.code_nil, rfl, fun _ ha => absurd ha not_mem_nil⟩
  | cons h _ ih =>
    obtain ⟨ha, hrest⟩ := forall_mem_cons.mp hargs
    obtain ⟨hcode, hlength, hsources⟩ := ih hrest
    obtain ⟨htcode, htsource⟩ := h.shape ha
    refine ⟨Shape.code_append.mpr ⟨htcode, hcode⟩, ?_, ?_⟩
    · rw [length_cons, length_cons, hlength]
    · exact forall_mem_cons.mpr ⟨htsource, hsources⟩

/-- A tile that leaves its value in the register issued for it. -/
theorem shaped_issued {k : Nat} {code : List Instr} (hk : own k = some e)
    (h : Admits S e → (issuedTo S own).reg (.issued k) → (issuedTo S own).Code code) :
    Shaped S own e ⟨code, .issued k⟩ := by
  have hreg : (issuedTo S own).reg (.issued k) := .inr ⟨k, Option.isSome_of_eq_some hk, rfl⟩
  exact fun he => ⟨h he hreg, hreg⟩

theorem isSome_name?_of_cond? {op : Op} {c : Cond} (h : cond? op = some c) :
    c.name?.isSome = true := by
  cases op <;> cases h <;> rfl

/-- A word has 63 bits below its sign. -/
theorem exponent?_lt {v : Int64} {k : Nat} (h : exponent? v = some k) : k < 63 := by
  unfold exponent? at h
  split at h
  next hv =>
    cases h
    have hpos : 0 < v.toInt := by
      rw [Bool.and_eq_true, decide_eq_true_eq] at hv
      exact Int64.lt_iff_toInt_lt.mp hv.1
    have hlt := v.toInt_lt
    rw [Nat.log2_lt (by omega)]
    omega
  next => cases h

end

section

variable {S : Shape} (hS : Divides S)

include hS

theorem shape_combine? {own : Owner} {op : Op} {r : Reg} {x y : Operand} {tail : List Instr}
    (h : combine? op r x y = some tail) (hr : (issuedTo S own).reg r)
    (hx : (issuedTo S own).Source x) (hy : (issuedTo S own).Place y) :
    (issuedTo S own).Code tail := by
  have hrax : (issuedTo S own).reg .rax := .inl hS.1
  have hrdx : (issuedTo S own).reg .rdx := .inl hS.2
  have harith : ∀ a : Arith, a.name?.isSome = true →
      (issuedTo S own).Code [.mov (.reg r) x, .arith a (.reg r) y] := by
    intro a ha
    simp only [Shape.code_cons, Shape.code_nil, and_true]
    exact ⟨.mov (.reg hr hx), .arith ha (.reg hr hy.source)⟩
  have hdivide : ∀ q : Reg, (issuedTo S own).reg q →
      (issuedTo S own).Code [.mov (.reg .rax) x, .cqo, .idiv y, .copy r q] := by
    intro q hq
    simp only [Shape.code_cons, Shape.code_nil, and_true]
    exact ⟨.mov (.reg hrax hx), .cqo, .idiv hy, .copy hr hq⟩
  cases op <;> cases h
  case add => exact harith .add rfl
  case sub => exact harith .sub rfl
  case xor => exact harith .xor rfl
  case mul =>
    simp only [Shape.code_cons, Shape.code_nil, and_true]
    exact ⟨.mov (.reg hr hx), .imul hr hy⟩
  case div => exact hdivide .rax hrax
  case mod => exact hdivide .rdx hrdx

/-- Every tile has the shape. -/
theorem shaped_rules : Rules (Shaped S) where
  mono := by
    intro own own' e t hown h he
    have hle : (issuedTo S own).Le (issuedTo S own') := by
      apply Shape.issuing_le
      intro k hk
      obtain ⟨x, hx⟩ := Option.isSome_iff_exists.mp hk
      rw [hown k x hx]
      rfl
    exact ⟨(h he).1.mono hle, hle.reg (h he).2⟩
  const hk := shaped_issued hk fun _ hreg => Shape.code_cons.mpr ⟨.load hreg _, Shape.code_nil⟩
  name hk := shaped_issued hk fun he hreg =>
    Shape.code_cons.mpr ⟨.lea hreg (.symbol he), Shape.code_nil⟩
  temp := fun he => ⟨Shape.code_nil, .inl he⟩
  mem hk hm := shaped_issued hk fun he hreg => by
    obtain ⟨hcode, hword⟩ := hm.shape he
    simp only [Shape.code_append, Shape.code_cons, Shape.code_nil, and_true]
    exact ⟨⟨.comment _, hcode⟩, .mov (.reg hreg (.mem hword))⟩
  generic hk hx hy htail := shaped_issued hk fun he hreg => by
    obtain ⟨hxcode, hxsource⟩ := hx.shape he.1
    obtain ⟨hycode, hyplace⟩ := hy.shape he.2
    simp only [Shape.code_append, Shape.code_cons]
    exact ⟨⟨⟨.comment _, hxcode⟩, hycode⟩, shape_combine? hS htail hreg hxsource hyplace⟩
  commutative hk _ hy hx htail := shaped_issued hk fun he hreg => by
    obtain ⟨hxcode, hxplace⟩ := hx.shape he.1
    obtain ⟨hycode, hyreg⟩ := hy he.2
    simp only [Shape.code_append, Shape.code_cons]
    exact ⟨⟨⟨.comment _, hycode⟩, hxcode⟩,
      shape_combine? hS htail hreg (.value (.reg hyreg)) hxplace⟩
  compare hk hop hx hy := shaped_issued hk fun he hreg => by
    obtain ⟨hxcode, hxreg⟩ := hx he.1
    obtain ⟨hycode, hyreg⟩ := hy he.2
    simp only [Shape.code_append, Shape.code_cons, Shape.code_nil, and_true]
    exact ⟨⟨⟨.comment _, hxcode⟩, hycode⟩, .cmp (.reg hxreg (.value (.reg hyreg))),
      .set (isSome_name?_of_cond? hop), .copy hreg (.inl hS.1)⟩
  lea hk hm := shaped_issued hk fun he hreg => by
    obtain ⟨hcode, hword⟩ := hm.shape he
    simp only [Shape.code_append, Shape.code_cons, Shape.code_nil, and_true]
    exact ⟨⟨.comment _, hcode⟩, .lea hreg hword⟩
  imul3 hk hc hx := shaped_issued hk fun he hreg => by
    obtain ⟨hcode, hplace⟩ := hx.shape he.1
    simp only [Shape.code_append, Shape.code_cons, Shape.code_nil, and_true]
    exact ⟨⟨.comment _, hcode⟩, .imul3 hreg hplace hc⟩
  shl hk hc hx := shaped_issued hk fun he hreg => by
    obtain ⟨hcode, hsource⟩ := hx.shape he.1
    have hsmall := isImm32_ofNat (Nat.lt_trans (exponent?_lt hc) (by decide))
    simp only [Shape.code_append, Shape.code_cons, Shape.code_nil, and_true]
    exact ⟨⟨.comment _, hcode⟩, .mov (.reg hreg hsource), .shl (.reg hreg) hsmall⟩

end

section

variable {S : Shape} (hS : WorksOnMachine S)
variable {own : Owner}

include hS

theorem WorksOnMachine.issuedTo_reg (own : Owner) {r : MachineReg} (hsp : r ≠ .rsp)
    (hbp : r ≠ .rbp) : (issuedTo S own).reg (.machine r) := .inl (hS r hsp hbp)

theorem shape_passArgs {operands : List Operand} (h : ∀ a ∈ operands, (issuedTo S own).Source a) :
    (issuedTo S own).Code (passArgs operands) := by
  intro x hx
  rw [passArgs, mem_append, mem_reverse, mem_reverse, mem_map,
    mem_map] at hx
  rcases hx with ⟨a, ha, rfl⟩ | ⟨⟨r, a⟩, hra, rfl⟩
  · exact .push (h a (mem_of_mem_drop ha))
  · obtain ⟨hr, ha⟩ := of_mem_zip hra
    have hplain : ∀ q ∈ MachineReg.arguments, q ≠ .rsp ∧ q ≠ .rbp := by decide
    exact .mov (.reg (hS.issuedTo_reg own (hplain r hr).1 (hplain r hr).2) (h a ha))

theorem shape_callCode {target : Operand} {operands : List Operand} {result : Option Name}
    (htarget : (issuedTo S own).Allows (.call target))
    (h : ∀ a ∈ operands, (issuedTo S own).Source a)
    (hresult : ∀ n, result = some n → S.reg (.ofName n)) (hpad : S.stack 8)
    (hwords : S.stack (8 * Int64.ofNat (stackWords operands.length))) :
    (issuedTo S own).Code (callCode target operands result) := by
  have hrax := hS.issuedTo_reg own (r := .rax) (by decide) (by decide)
  simp only [callCode, Shape.code_append, Shape.code_cons, Shape.code_nil, and_true]
  refine ⟨⟨⟨⟨?_, shape_passArgs hS h⟩, htarget⟩, ?_⟩, ?_⟩
  · split
    · exact Shape.code_nil
    · exact Shape.code_cons.mpr ⟨.stack (.inr rfl) hpad, Shape.code_nil⟩
  · cases result with
    | none => exact Shape.code_nil
    | some n => exact Shape.code_cons.mpr ⟨.copy (.inl (hresult n rfl)) hrax, Shape.code_nil⟩
  · split
    · exact Shape.code_nil
    · exact Shape.code_cons.mpr ⟨.stack (.inl rfl) hwords, Shape.code_nil⟩

/-- The code of a statement has the shape that its names have. -/
theorem StmtCode.shape {func : Name} {s : Stmt Expr} {code : List Instr}
    (h : StmtCode (Shaped S) own func s code) (hs : AdmitsStmt S s) :
    (issuedTo S own).Code code := by
  have hrax := hS.issuedTo_reg own (r := .rax) (by decide) (by decide)
  cases h with
  | move dest h =>
    obtain ⟨hcode, hsource⟩ := h.shape hs.2
    simp only [Shape.code_append, Shape.code_cons, Shape.code_nil, and_true]
    exact ⟨hcode, .mov (.reg (.inl hs.1) hsource)⟩
  | store hm h =>
    obtain ⟨hmcode, hword⟩ := hm.shape hs.1
    obtain ⟨hcode, hvalue⟩ := h.shape hs.2
    simp only [Shape.code_append, Shape.code_cons, Shape.code_nil, and_true]
    exact ⟨⟨hmcode, hcode⟩, .mov (.mem hword hvalue)⟩
  | call result htarget hargs =>
    obtain ⟨hf, has, hresult, hpad, hwords⟩ := hs
    obtain ⟨htcode, htarget⟩ := htarget.shape hf
    obtain ⟨hcode, hlength, hsources⟩ := hargs.shape has
    rw [← hlength] at hwords
    simp only [Shape.code_append, Shape.code_cons, Shape.code_nil, and_true]
    exact ⟨⟨⟨⟨.comment _, htcode⟩, hcode⟩, .comment _,
      shape_callCode hS htarget hsources hresult hpad hwords⟩, .comment _⟩
  | jump l => exact Shape.code_cons.mpr ⟨.jump l rfl, Shape.code_nil⟩
  | label l => exact Shape.code_cons.mpr ⟨.label l, Shape.code_nil⟩
  | compare target hop hx hy =>
    obtain ⟨hxcode, hxreg⟩ := hx hs.1
    obtain ⟨hycode, hyvalue⟩ := hy.shape hs.2
    simp only [Shape.code_append, Shape.code_cons, Shape.code_nil, and_true]
    exact ⟨⟨⟨.comment _, hxcode⟩, hycode⟩, .cmp (.reg hxreg (.value hyvalue)),
      .jump target (isSome_name?_of_cond? hop)⟩
  | test target hx =>
    obtain ⟨hcode, hplace⟩ := hx.shape hs
    simp only [Shape.code_append, Shape.code_cons, Shape.code_nil, and_true]
    exact ⟨⟨.comment _, hcode⟩, .cmp (hplace.pair_imm rfl), .jump target rfl⟩
  | leave =>
    simp only [Shape.code_cons, Shape.code_nil, and_true]
    exact ⟨.comment _, .jump _ rfl⟩
  | ret h =>
    obtain ⟨hcode, hsource⟩ := h.shape hs
    simp only [Shape.code_append, Shape.code_cons, Shape.code_nil, and_true]
    exact ⟨⟨.comment _, hcode, .mov (.reg hrax hsource)⟩, .jump _ rfl⟩

/-- The code of a body has the shape that its names have, with the registers issued on the
way. -/
theorem shape_coverBody {func : Name} {body : List NodeStmt} {code : List Instr} {memo : Memo}
    (h : (coverBody func body).run.run .empty = (.ok code, memo))
    (hbody : ∀ s ∈ body, AdmitsStmt S s.plain) :
    (S.issuing (· < memo.supply.issued)).Code code := by
  let num : Numbering := { expr := fun _ => Admits S, stmt := fun _ => AdmitsStmt S }
  have hnode : ∀ n : Node, Admits S n.expr → n.Follows num := by
    intro n hn
    induction n with
    | mem id a ih => exact ⟨hn, ih hn⟩
    | binary id op l r ihl ihr => exact ⟨hn, ihl hn.1, ihr hn.2⟩
    | absent => trivial
    | _ => exact hn
  have hfollows : ∀ s ∈ body, s.Follows num := by
    intro s hs
    have hadmits := hbody s hs
    exact ⟨hadmits, fun n hn => hnode n (admits_of_mem_nodes hadmits hn)⟩
  have hshares : num.Shares (Shaped S) := fun _ _ _ _ _ he _ ht _ => ht he
  have hensures : Ensures num (Shaped S) func False (fun _ => none) (coverBody func body) _ :=
    coverBody_ensures (shaped_rules hS.divides) hshares hfollows (by simp)
  have hend := hensures .empty (Memo.fits_empty num (Shaped S) func)
  rw [h] at hend
  obtain ⟨own, _, hfits, codes, rfl, hcodes⟩ := hend
  have hle : (issuedTo S own).Le (S.issuing (· < memo.supply.issued)) := by
    grind [Shape.issuing_le, Option.isSome_iff_exists, hfits.issued]
  apply Shape.Code.mono hle
  rw [Shape.code_append]
  refine ⟨Shape.code_flatten ?_, Shape.code_cons.mpr ⟨.label _, Shape.code_nil⟩⟩
  intro c hc
  obtain ⟨s, hs, plain, hplain, hcode⟩ := exists_mem_of_forall₂ hcodes hc
  exact hcode.shape hS hplain

end

end X64Backend.Select
