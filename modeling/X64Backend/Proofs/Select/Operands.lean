import X64Backend.Proofs.Select.Tiles

/-! # Addresses and operands of expressions

An expression split into a base, an index and a displacement is their sum. So the memory
operand made of them is at the value of the expression, and the operands that selection
makes of expressions hold their values.
-/

namespace X64Backend.Select

open Asm Code Machine

theorem Sum.sizeOf_le {e : Expr} {b i : Option Expr} {d : Int64} (h : Sum e b i d) :
    (∀ x ∈ b, sizeOf x ≤ sizeOf e) ∧ ∀ x ∈ i, sizeOf x ≤ sizeOf e := by
  induction h with
  | const _ | base e | index e => simp
  | disp _ _ ih =>
    grind
  | left _ _ _ ihx ihy =>
    grind
  | right _ _ _ ihx ihy =>
    grind

theorem Sum.tempNamed {e : Expr} {b i : Option Expr} {d : Int64} (h : Sum e b i d)
    (he : TempNamed e) : (∀ x ∈ b, TempNamed x) ∧ ∀ x ∈ i, TempNamed x := by
  induction h with
  | const _ => simp
  | base e | index e => simpa using he
  | disp _ _ ih => exact ih he.1
  | left _ _ _ ihx ihy => exact ⟨(ihx he.1).1, (ihy he.2).2⟩
  | right _ _ _ ihx ihy => exact ⟨(ihy he.2).1, (ihx he.1).2⟩

/-- What a part of a sum adds to it. -/
def Setting.part (S : Setting) (s : State) : Option Expr → Option Int64
  | none => some 0
  | some e => S.value s e

section

variable {S : Setting} {s : State}

@[simp] theorem Setting.part_none : S.part s none = some 0 := rfl

@[simp] theorem Setting.part_some (e : Expr) : S.part s (some e) = S.value s e := rfl

theorem Setting.Keeps.part_eq {own : Owner} {free : Expr → Prop} {s' : State}
    (h : S.Keeps own free s s') {b : Option Expr} (hb : ∀ e ∈ b, TempNamed e) :
    S.part s' b = S.part s b := by
  cases b with
  | none => rfl
  | some e => exact h.value_eq (hb e rfl)

theorem Setting.value_binary {op : Op} {l r : Expr} {a b : Int64} (hl : S.value s l = some a)
    (hr : S.value s r = some b) :
    S.value s (.binary op l r) = (Meaning.evalOp op a b).toOption := by
  simp [Setting.value, hl, hr]

theorem Setting.value_binary_of_none {op : Op} {l r : Expr}
    (h : S.value s l = none ∨ S.value s r = none) : S.value s (.binary op l r) = none := by
  rcases h with h | h
  · simp [Setting.value, h]
  · cases hl : S.value s l <;> simp [Setting.value, h, hl]

/-- A sum is the sum of its parts. -/
theorem Setting.value_sum {e : Expr} {b i : Option Expr} {d : Int64} (h : Sum e b i d) :
    S.value s e = do
      let x ← S.part s b
      let y ← S.part s i
      return x + y + d := by
  induction h with
  | const _ => simp [Setting.value]
  | base e | index e => cases h : S.value s e <;> simp [h]
  | @disp op l b i c d hd _ ih =>
    cases hb : S.part s b with
    | none => exact S.value_binary_of_none (.inl (by simp [ih, hb]))
    | some x =>
      cases hi : S.part s i with
      | none => exact S.value_binary_of_none (.inl (by simp [ih, hb, hi]))
      | some y =>
        have hl : S.value s l = some (x + y) := by simp [ih, hb, hi]
        rw [S.value_binary hl rfl]
        cases hd with
        | add _ => rfl
        | sub _ _ => simp [Meaning.evalOp, Except.toOption, Int64.sub_eq_add_neg]
  | @left x y b i d e _ _ _ ihx ihy =>
    cases hb : S.part s b with
    | none => exact S.value_binary_of_none (.inl (by simp [ihx, hb]))
    | some u =>
      cases hi : S.part s i with
      | none => exact S.value_binary_of_none (.inr (by simp [ihy, hi]))
      | some v =>
        have hx : S.value s x = some (u + d) := by simp [ihx, hb]
        have hy : S.value s y = some (v + e) := by simp [ihy, hi]
        have hsum : u + d + (v + e) = u + v + (d + e) := by grind
        simp [S.value_binary hx hy, Meaning.evalOp, Except.toOption, hsum]
  | @right x y b i d e _ _ _ ihx ihy =>
    cases hb : S.part s b with
    | none => exact S.value_binary_of_none (.inr (by simp [ihy, hb]))
    | some u =>
      cases hi : S.part s i with
      | none => exact S.value_binary_of_none (.inl (by simp [ihx, hi]))
      | some v =>
        have hx : S.value s x = some (v + d) := by simp [ihx, hi]
        have hy : S.value s y = some (u + e) := by simp [ihy, hb]
        have hsum : v + d + (u + e) = u + v + (d + e) := by grind
        simp [S.value_binary hx hy, Meaning.evalOp, Except.toOption, hsum]

end

/-- A tile that leaves the value of its expression in an abstract register. -/
def Setting.IsTile (S : Setting) (own : Owner) (e : Expr) (t : Tile Reg) : Prop :=
  TempNamed e → (∃ n, n ≠ [] ∧ t.result = .abstract n) ∧
    S.Computes own e t.code fun s => some (s.get t.result)

section

variable {S : Setting} {own : Owner}
variable {e : Expr} {t : Tile Operand}

theorem Setting.IsTile.base {t : Tile Reg} (h : S.IsTile own e t) (he : TempNamed e) (s : State) :
    baseWord s (Mem.baseOf t.result) = s.get t.result := by
  obtain ⟨⟨n, hn, heq⟩, _⟩ := h he
  have hne : t.result ≠ .abstract [] := by
    rw [heq]
    exact fun h => hn (Reg.abstract.inj h)
  rw [Mem.baseOf, if_neg hne, heq]
  rfl

theorem Setting.base_prepares {b : Option Expr} {t : Tile (Option Reg)} (h : IsBase S.IsTile own b t)
    (hb : ∀ e ∈ b, TempNamed e) :
    S.Prepares own (fun f => ∀ e ∈ b, sizeOf e < sizeOf f) t.code
      (fun s s' => S.part s b = some (baseWord s' t.result)) (fun s => S.part s b = none) := by
  cases h with
  | none => exact .nil fun _ _ _ _ _ => rfl
  | @some e t h =>
    have he := hb e rfl
    refine (h he).2.imp (fun f hf => hf e rfl) ?_ fun _ hnone => hnone
    intro s s' hread
    rw [h.base he]
    exact hread.symm

theorem Setting.scaled_computes {t : Tile Scaled} (h : IsScaled S.IsTile own e t)
    (he : TempNamed e) : S.Computes own e t.code fun s => some (indexWord s (some t.result)) := by
  cases h with
  | temp n =>
    apply Setting.Prepares.nil
    intro s own' _ s' hkeeps
    simp [indexWord, Setting.value, hkeeps.get_user he]
  | @product l t c hl hc =>
    refine (hl he.1).2.imp ?_ ?_ ?_
    · intro f hf
      simp only [Expr.binary.sizeOf_spec] at hf
      omega
    · intro s s' hread
      rw [S.value_binary hread.symm rfl]
      rfl
    · intro s hnone
      exact S.value_binary_of_none (.inl hnone)

theorem Setting.index_prepares {i : Option Expr} {t : Tile (Option Scaled)}
    (h : IsIndex S.IsTile own i t) (hi : ∀ e ∈ i, TempNamed e) :
    S.Prepares own (fun f => ∀ e ∈ i, sizeOf e < sizeOf f) t.code
      (fun s s' => S.part s i = some (indexWord s' t.result)) (fun s => S.part s i = none) := by
  cases h with
  | none => exact .nil fun _ _ _ _ _ => rfl
  | @some e t h =>
    refine (S.scaled_computes h (hi e rfl)).imp (fun f hf => hf e rfl) ?_ fun _ hnone => hnone
    intro s s' hread
    exact hread.symm

theorem Setting.address_atSymbol {n : Name} (hn : n ≠ []) (s s' : State) :
    (S.img.address s' (.atSymbol n)).toOption = S.value s (.name n) := by
  rw [address_eq, Mem.atSymbol, Const.ofName, if_neg (by simpa using hn)]
  cases h : S.img.constValue (.sym n) <;>
    simp [Setting.value, baseWord, indexWord, h, Except.map, Except.toOption]

theorem Setting.address_computes {m : Tile Mem} (h : IsAddress S.IsTile own e m)
    (he : TempNamed e) : S.Computes own e m.code fun s => (S.img.address s m.result).toOption := by
  cases h with
  | symbol n hcode =>
    intro s
    obtain ⟨s', hseq, hkeeps⟩ := S.comments_run hcode s
    exact .inl ⟨s', hseq, hkeeps, fun _ _ s'' _ => S.address_atSymbol he s s''⟩
  | @sum e b i d base index hsum hbase hindex =>
    obtain ⟨hb, hi⟩ := hsum.tempNamed he
    obtain ⟨hsb, hsi⟩ := hsum.sizeOf_le
    have hfree {p : Option Expr} (hp : ∀ x ∈ p, sizeOf x ≤ sizeOf e) (f : Expr)
        (hf : sizeOf e < sizeOf f) : ∀ x ∈ p, sizeOf x < sizeOf f :=
      fun x hx => Nat.lt_of_le_of_lt (hp x hx) hf
    have hindex := (S.index_prepares hindex hi).imp (hfree hsi) (fun _ _ => id) fun _ => id
    have hbase := (S.base_prepares hbase hb).imp (hfree hsb) (fun _ _ => id) fun _ => id
    refine (hindex.append hbase ?_ ?_).imp (fun _ h => h) ?_ ?_
    · intro s s' hkeeps s'' hread
      rwa [hkeeps.part_eq hb] at hread
    · intro s s' hkeeps hnone
      rwa [hkeeps.part_eq hb] at hnone
    · intro s s' ⟨hx, hy⟩
      simp only [address_eq]
      rw [S.value_sum hsum, hx, hy]
      rfl
    · intro s hnone
      rw [S.value_sum hsum]
      rcases hnone with hnone | hnone
      · cases S.part s b <;> simp [hnone]
      · simp [hnone]

theorem Setting.place_computes (h : IsPlace S.IsTile own e t) (he : TempNamed e) :
    S.Computes own e t.code fun s => S.operand? s t.result := by
  cases h with
  | reg h => exact (h he).2
  | @mem a m h =>
    -- the word is at the address, in memory that preparing the address left alone
    intro s
    rcases S.address_computes h he s with ⟨s', hseq, hkeeps, hread⟩ | ⟨hnone, hfails⟩
    · refine .inl ⟨s', hseq, hkeeps, ?_⟩
      intro own' hown s'' hlater
      have haddress : (S.img.address s'' m.result).toOption = S.value s a := by
        refine hread own' hown s'' (hlater.mono ?_)
        intro f hf
        simp only [Expr.mem.sizeOf_spec] at hf
        omega
      simp only [Setting.operand?, Setting.value]
      rw [haddress, hlater.memory, hkeeps.memory]
    · refine .inr ⟨?_, hfails⟩
      simp [Setting.value, hnone]

theorem Setting.imm_computes (c : Int64) :
    S.Computes own (.const c) [] fun s => S.operand? s (.imm c) :=
  .nil fun _ _ _ _ _ => rfl

theorem Setting.operand_computes (h : IsOperand S.IsTile own e t) (he : TempNamed e) :
    S.Computes own e t.code fun s => S.operand? s t.result := by
  cases h with
  | imm _ => exact S.imm_computes _
  | place h => exact S.place_computes h he

theorem Setting.immOrReg_computes (h : IsImmOrReg S.IsTile own e t) (he : TempNamed e) :
    S.Computes own e t.code fun s => S.operand? s t.result := by
  cases h with
  | imm _ => exact S.imm_computes _
  | reg h => exact (h he).2

end

end X64Backend.Select
