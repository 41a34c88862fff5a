import Mathlib.Data.List.Forall2
import X64Backend.Proofs.Select.Memo

/-! # Selection keeps the rules

Every tile that selection makes has one of the shapes of the rules, whichever of the
competing tiles is the cheapest, as long as places with one number are uses of one
node. Selection does not stop at valid trees. The proof follows the functions from the
forms of addresses up to whole bodies.
-/

namespace X64Backend.Select

open Asm Code List

variable {α : Type} {n : Node}

theorem Tile.mem_cheaper {a b : Option (Tile α)} {t : Tile α} (h : t ∈ Tile.cheaper a b) :
    t ∈ a ∨ t ∈ b := by
  unfold Tile.cheaper at h
  split at h
  · exact .inr h
  · exact .inl h
  · split at h
    · exact .inl h
    · exact .inr h

theorem Tile.isSome_cheaper (a b : Option (Tile α)) :
    (Tile.cheaper a b).isSome = (a.isSome || b.isSome) := by
  unfold Tile.cheaper
  split
  · simp
  · simp
  · split <;> rfl

theorem Tile.mem_foldl_cheaper {tiles : List (Option (Tile α))} {first : Option (Tile α)}
    {t : Tile α} (h : t ∈ tiles.foldl Tile.cheaper first) : t ∈ first ∨ ∃ o ∈ tiles, t ∈ o := by
  induction tiles generalizing first with
  | nil => exact .inl h
  | cons o rest ih =>
    rcases ih h with hmem | ⟨o', ho', hmem⟩
    · rcases mem_cheaper hmem with hmem | hmem
      · exact .inl hmem
      · exact .inr ⟨o, mem_cons_self, hmem⟩
    · exact .inr ⟨o', mem_cons_of_mem _ ho', hmem⟩

theorem Tile.isSome_foldl_cheaper (tiles : List (Option (Tile α))) (first : Option (Tile α)) :
    (tiles.foldl Tile.cheaper first).isSome = (first.isSome || tiles.any Option.isSome) := by
  induction tiles generalizing first with
  | nil => simp
  | cons o rest ih => rw [foldl_cons, ih, isSome_cheaper, any_cons, Bool.or_assoc]

theorem displacement?_eq_some {op : Op} {d : Int64} (h : displacement? op n = some d) :
    ∃ c, n.expr = .const c ∧ Displaces op c d := by
  unfold displacement? at h
  split at h
  next id c =>
    split at h
    next hc =>
      cases h
      exact ⟨d, rfl, .add hc⟩
    next => cases h
  next id c =>
    split at h
    next hc =>
      cases h
      rw [Bool.and_eq_true] at hc
      exact ⟨c, rfl, .sub hc.2 hc.1⟩
    next => cases h
  next => cases h

theorem scale?_eq_some {s : Int64} (h : scale? n = some s) :
    n.expr = .const s ∧ (s = 1 ∨ s = 2 ∨ s = 4 ∨ s = 8) := by
  unfold scale? at h
  split at h
  next id c =>
    split at h
    next hc =>
      cases h
      exact ⟨rfl, by simpa [or_assoc] using hc⟩
    next => cases h
  next => cases h

theorem rightImm?_eq_some {c : Int64} (h : rightImm? n = some c) :
    n.expr = .const c ∧ isImm32 c = true := by
  unfold rightImm? at h
  split at h
  next id c =>
    split at h
    next hc =>
      cases h
      exact ⟨rfl, hc⟩
    next => cases h
  next => cases h

/-- A tree that selection is asked for: its numbers stand for its places, its height is
bounded, and it is valid where selection must not stop. -/
structure Node.Ready (num : Numbering) (ok : Prop) (d : Nat) (n : Node) : Prop where
  follows : n.Follows num
  height_le : n.height ≤ d
  valid : ok → n.expr.Valid

namespace Node.Ready

variable {num : Numbering} {ok : Prop} {d id : Nat} {op : Op} {l r a n : Node}

theorem succ (h : n.Ready num ok d) : n.Ready num ok (d + 1) :=
  ⟨h.follows, Nat.le_succ_of_le h.height_le, h.valid⟩

theorem mem (h : (Node.mem id a).Ready num ok (d + 1)) : a.Ready num ok d :=
  ⟨h.follows.2, Nat.le_of_succ_le_succ h.height_le, h.valid⟩

variable (h : (Node.binary id op l r).Ready num ok (d + 1))

include h

theorem left : l.Ready num ok d := by
  have hle : max l.height r.height ≤ d := Nat.le_of_succ_le_succ h.height_le
  exact ⟨h.follows.2.1, by omega, fun hok => (h.valid hok).2.1⟩

theorem right : r.Ready num ok d := by
  have hle : max l.height r.height ≤ d := Nat.le_of_succ_le_succ h.height_le
  exact ⟨h.follows.2.2, by omega, fun hok => (h.valid hok).2.2⟩

omit h

/-- A tree is ready at one bound only if the bound is not zero. -/
theorem exists_succ (h : n.Ready num ok d) : ∃ k, d = k + 1 := by
  have hle := h.height_le
  cases n <;> simp only [Node.height] at hle <;> exact ⟨d - 1, by omega⟩

end Node.Ready

/-- A memory operand that adds up the parts of a sum. -/
def IsSum (P : Owner → Expr → Tile Reg → Prop) (own : Owner) (e : Expr) (b i : Option Expr)
    (d : Int64) (m : Tile Mem) : Prop :=
  Sum e b i d ∧ ∃ base index, IsBase P own b base ∧ IsIndex P own i index ∧
    m = ⟨index.code ++ base.code, ⟨base.result, index.result, .imm d⟩⟩

theorem IsSum.isAddress {P : Owner → Expr → Tile Reg → Prop} {own : Owner} {e : Expr}
    {b i : Option Expr} {d : Int64} {m : Tile Mem} (h : IsSum P own e b i d m) :
    IsAddress P own e m := by
  obtain ⟨hsum, base, index, hbase, hindex, rfl⟩ := h
  exact .sum hsum hbase hindex

section

variable {num : Numbering} {P : Owner → Expr → Tile Reg → Prop} {func : Name} {ok : Prop}
variable {own : Owner} {d : Nat} {expr : Node → Selection (Tile Reg)}
variable (rules : Rules P)
variable (hexpr : ∀ {own : Owner} {n : Node}, n.Ready num ok d →
  Ensures num P func ok own (expr n) fun own' t => P own' n.expr t)
variable {id : Nat} {op : Op} {l r : Node}
variable (h : (Node.binary id op l r).Ready num ok (d + 1))

include hexpr in
theorem scaled?_ensures (h : n.Ready num ok (d + 1)) :
    Ensures num P func ok own (scaled? expr n) fun own' o =>
      ∀ s ∈ o, IsScaled P own' n.expr s := by
  unfold scaled?
  split
  next id n =>
    apply Ensures.pure
    rintro s ⟨⟩
    exact .temp n
  next id l r =>
    split
    next c hc =>
      obtain ⟨hr, hscale⟩ := scale?_eq_some hc
      apply Ensures.bind (hexpr h.left)
      intro own' t hown ht
      apply Ensures.pure
      rintro s ⟨⟩
      rw [Node.expr, hr]
      exact .product ht hscale
    next => exact Ensures.pure_none
  next => exact Ensures.pure_none

include h

include hexpr in
theorem baseDisp?_ensures :
    Ensures num P func ok own (baseDisp? expr op l r) fun own' o =>
      ∀ m ∈ o, ∃ d, IsSum P own' (.binary op l.expr r.expr) (some l.expr) none d m := by
  unfold baseDisp?
  split
  next c hc =>
    obtain ⟨v, hr, hdisp⟩ := displacement?_eq_some hc
    apply Ensures.bind (hexpr h.left)
    intro own' t hown ht
    apply Ensures.pure
    rintro m ⟨⟩
    refine ⟨c, ?_, _, _, .some ht, .none, rfl⟩
    rw [hr]
    exact .disp hdisp (.base _)
  next => exact Ensures.pure_none

include hexpr in
theorem indexDisp?_ensures :
    Ensures num P func ok own (indexDisp? expr op l r) fun own' o =>
      ∀ m ∈ o, ∃ d, IsSum P own' (.binary op l.expr r.expr) none (some l.expr) d m := by
  unfold indexDisp?
  split
  next c hc =>
    obtain ⟨v, hr, hdisp⟩ := displacement?_eq_some hc
    apply Ensures.bind (scaled?_ensures hexpr h.left.succ)
    intro own' o hown ho
    apply Ensures.pure
    intro m hm
    obtain ⟨s, hs, rfl⟩ := Option.map_eq_some_iff.mp hm
    refine ⟨c, ?_, _, _, .none, .some (ho s hs), by simp [Tile.map]⟩
    rw [hr]
    exact .disp hdisp (.index _)
  next => exact Ensures.pure_none

omit h

include hexpr in
theorem withBase_ensures {base : Node} {s : Tile Scaled} (h : base.Ready num ok d) :
    Ensures num P func ok own (withBase expr s base) fun own' m =>
      ∃ b, IsBase P own' (some base.expr) b ∧
        m = ⟨s.code ++ b.code, ⟨b.result, some s.result, .imm 0⟩⟩ := by
  apply Ensures.bind (hexpr h)
  intro own' t hown ht
  exact Ensures.pure ⟨_, .some ht, rfl⟩

include rules hexpr

include h in
theorem baseIndex?_ensures :
    Ensures num P func ok own (baseIndex? expr op l r) fun own' o =>
      ∀ m ∈ o, ∃ b i, IsSum P own' (.binary op l.expr r.expr) b i 0 m := by
  unfold baseIndex?
  split
  next =>
    -- the right operand as the index, then the left one, kept beside what came first
    have hsecond : ∀ {own : Owner} (first : Option (Tile Mem)) {next}, next none = pure first →
        (∀ s, next (some s) = (withBase expr s r >>= fun m => pure (Tile.cheaper first (some m)))) →
        (∀ m ∈ first, IsSum P own (.binary .add l.expr r.expr) (some l.expr) (some r.expr) 0 m) →
        Ensures num P func ok own (scaled? expr l >>= next) fun own' o =>
          ∀ m ∈ o, ∃ b i, IsSum P own' (.binary .add l.expr r.expr) b i 0 m := by
      intro own first next hnone hsome hfirst
      apply Ensures.bind (scaled?_ensures hexpr h.left.succ)
      intro own' o hown ho
      have hkeep : ∀ {own''}, own.Within own'' → ∀ m ∈ first, ∃ b i,
          IsSum P own'' (.binary .add l.expr r.expr) b i 0 m := by
        intro own'' hown' m hm
        obtain ⟨hsum, b, i, hb, hi, rfl⟩ := hfirst m hm
        have hmono : ∀ {e t}, P own e t → P own'' e t := rules.mono hown'
        exact ⟨_, _, hsum, b, i, hb.mono hmono, hi.mono hmono, rfl⟩
      cases o with
      | none =>
        rw [hnone]
        exact Ensures.pure (hkeep hown)
      | some s =>
        rw [hsome]
        apply Ensures.bind (withBase_ensures hexpr h.right)
        rintro own'' m hown' ⟨b, hb, rfl⟩
        apply Ensures.pure
        intro m hm
        rcases Tile.mem_cheaper hm with hm | hm
        · exact hkeep (hown.trans hown') m hm
        · cases hm
          have hs := (ho s rfl).mono (rules.mono hown')
          exact ⟨_, _, .right (.index _) (.base _) (.inl rfl), b, _, hb, .some hs, rfl⟩
    apply Ensures.bind (scaled?_ensures hexpr h.right.succ)
    intro own' o hown ho
    cases o with
    | none =>
      have hnone : Ensures num P func ok own' (pure (none : Option (Tile Mem)))
        fun _ o => o = none := Ensures.pure rfl
      apply Ensures.bind hnone
      rintro own'' _ hown' rfl
      exact hsecond none rfl (fun _ => rfl) (by simp)
    | some s =>
      have hsome : Ensures num P func ok own' (some <$> withBase expr s l) fun own'' o =>
          ∀ m ∈ o, IsSum P own'' (.binary .add l.expr r.expr) (some l.expr) (some r.expr) 0
            m := by
        apply Ensures.bind (withBase_ensures hexpr h.left)
        rintro own'' m hown' ⟨b, hb, rfl⟩
        apply Ensures.pure
        rintro m ⟨⟩
        refine ⟨.left (.base _) (.index _) (.inl rfl), b, _, hb, .some ?_, rfl⟩
        exact (ho s rfl).mono (rules.mono hown')
      apply Ensures.bind hsome
      intro own'' first hown' hfirst
      exact hsecond first rfl (fun _ => rfl) hfirst
  next => exact Ensures.pure_none

/-- A scaled index and a base with a displacement, which is the sum in either order. -/
theorem indexBaseDisp?_ensures {x y : Node} (hx : x.Ready num ok d) (hy : y.Ready num ok d) :
    Ensures num P func ok own (indexBaseDisp? expr x y) fun own' o => ∀ m ∈ o,
      IsAddress P own' (.binary .add x.expr y.expr) m ∧
      IsAddress P own' (.binary .add y.expr x.expr) m := by
  unfold indexBaseDisp?
  split
  next id op l r =>
    apply Ensures.bind (scaled?_ensures hexpr hx.succ)
    intro own' o hown ho
    cases o with
    | none => exact Ensures.pure_none
    | some s =>
      apply Ensures.bind (baseDisp?_ensures hexpr hy.succ)
      intro own'' o hown' hbd
      cases o with
      | none => exact Ensures.pure_none
      | some bd =>
        apply Ensures.pure
        rintro m ⟨⟩
        obtain ⟨disp, hsum, base, index, hbase, ⟨⟩, rfl⟩ := hbd bd rfl
        have hs : IsIndex P own'' (some x.expr) ⟨s.code, some s.result⟩ :=
          .some ((ho s rfl).mono (rules.mono hown'))
        constructor
        · have hsum := Sum.right (.index x.expr) hsum (.inl rfl)
          rw [Int64.zero_add] at hsum
          simpa [Node.expr] using IsAddress.sum hsum hbase hs
        · have hsum := Sum.left hsum (.index x.expr) (.inr rfl)
          rw [Int64.add_zero] at hsum
          simpa [Node.expr] using IsAddress.sum hsum hbase hs
  next => exact Ensures.pure_none

/-- A base and a scaled index with a displacement, which is the sum in either order. -/
theorem baseIndexDisp?_ensures {x y : Node} (hx : x.Ready num ok d) (hy : y.Ready num ok d) :
    Ensures num P func ok own (baseIndexDisp? expr x y) fun own' o => ∀ m ∈ o,
      IsAddress P own' (.binary .add x.expr y.expr) m ∧
      IsAddress P own' (.binary .add y.expr x.expr) m := by
  unfold baseIndexDisp?
  split
  next id op l r =>
    apply Ensures.bind (indexDisp?_ensures hexpr hy.succ)
    intro own' o hown ho
    cases o with
    | none => exact Ensures.pure_none
    | some m =>
      apply Ensures.bind (hexpr hx)
      intro own'' t hown' ht
      apply Ensures.pure
      rintro m' ⟨⟩
      obtain ⟨disp, hsum, base, index, ⟨⟩, hindex, rfl⟩ := ho m rfl
      have hindex := hindex.mono (rules.mono hown')
      constructor
      · have hsum := Sum.left (.base x.expr) hsum (.inl rfl)
        rw [Int64.zero_add] at hsum
        simpa [Node.expr] using IsAddress.sum hsum (.some ht) hindex
      · have hsum := Sum.right hsum (.base x.expr) (.inr rfl)
        rw [Int64.add_zero] at hsum
        simpa [Node.expr] using IsAddress.sum hsum (.some ht) hindex
  next => exact Ensures.pure_none

include h in
theorem complete?_ensures :
    Ensures num P func ok own (complete? expr op l r) fun own' o =>
      ∀ m ∈ o, IsAddress P own' (.binary op l.expr r.expr) m := by
  unfold complete?
  split
  next =>
    split
    next c hc =>
      obtain ⟨hr, himm⟩ := rightImm?_eq_some hc
      split
      next lid lop ll lr =>
        apply Ensures.bind (baseIndex?_ensures rules hexpr h.left.succ)
        intro own' o hown ho
        apply Ensures.pure
        intro m hm
        obtain ⟨t, ht, rfl⟩ := Option.map_eq_some_iff.mp hm
        obtain ⟨b, i, hsum, base, index, hbase, hindex, rfl⟩ := ho t ht
        rw [hr]
        exact .sum (.disp (.add himm) hsum) hbase hindex
      next => exact Ensures.pure_none
    next =>
      apply Ensures.bind (indexBaseDisp?_ensures rules hexpr h.left h.right)
      intro own₁ a _ ha
      apply Ensures.bind (baseIndexDisp?_ensures rules hexpr h.left h.right)
      intro own₂ b h₂ hb
      apply Ensures.bind (indexBaseDisp?_ensures rules hexpr h.right h.left)
      intro own₃ c h₃ hc
      apply Ensures.bind (baseIndexDisp?_ensures rules hexpr h.right h.left)
      intro own₄ e h₄ he
      apply Ensures.pure
      intro m hm
      rcases Tile.mem_cheaper hm with hm | hm
      · rcases Tile.mem_cheaper hm with hm | hm
        · rcases Tile.mem_cheaper hm with hm | hm
          · exact (ha m hm).1.mono (rules.mono (h₂.trans (h₃.trans h₄)))
          · exact (hb m hm).1.mono (rules.mono (h₃.trans h₄))
        · exact (hc m hm).2.mono (rules.mono h₄)
      · exact (he m hm).2
  next => exact Ensures.pure_none

/-- A form that the address of a memory operand has. -/
theorem address?_ensures (h : n.Ready num ok (d + 1)) :
    Ensures num P func ok own (address? expr n) fun own' o =>
      ∀ m ∈ o, IsAddress P own' n.expr m := by
  cases n with
  | const id c =>
    apply Ensures.pure
    intro m hm
    split at hm
    next hc =>
      cases hm
      exact .sum (.const hc) .none .none
    next => cases hm
  | name id n =>
    apply Ensures.pure
    rintro m ⟨⟩
    exact .symbol n (by simp)
  | temp id n =>
    apply Ensures.pure
    rintro m ⟨⟩
    exact .sum (.base _) (.some rules.temp) .none
  | mem id a | absent => exact Ensures.pure_none
  | binary id op l r =>
    apply Ensures.bind (complete?_ensures rules hexpr h)
    intro own₁ a _ ha
    apply Ensures.bind (scaled?_ensures hexpr h)
    intro own₂ b h₂ hb
    apply Ensures.bind (baseDisp?_ensures hexpr h)
    intro own₃ c h₃ hc
    apply Ensures.bind (baseIndex?_ensures rules hexpr h)
    intro own₄ e h₄ he
    apply Ensures.bind (indexDisp?_ensures hexpr h)
    intro own₅ f h₅ hf
    apply Ensures.pure
    intro m hm
    -- The form is that of the cheapest of the five.
    rcases Tile.mem_cheaper hm with hm | hm
    · rcases Tile.mem_cheaper hm with hm | hm
      · rcases Tile.mem_cheaper hm with hm | hm
        · rcases Tile.mem_cheaper hm with hm | hm
          · exact (ha m hm).mono (rules.mono (h₂.trans (h₃.trans (h₄.trans h₅))))
          · obtain ⟨s, hs, rfl⟩ := Option.map_eq_some_iff.mp hm
            have hs := (hb s hs).mono (rules.mono (h₃.trans (h₄.trans h₅)))
            simpa [Tile.map] using IsAddress.sum (.index _) .none (.some hs)
        · obtain ⟨_, hsum⟩ := hc m hm
          exact hsum.isAddress.mono (rules.mono (h₄.trans h₅))
      · obtain ⟨_, _, hsum⟩ := he m hm
        exact hsum.isAddress.mono (rules.mono h₅)
    · obtain ⟨_, hsum⟩ := hf m hm
      exact hsum.isAddress

theorem memory_ensures (h : n.Ready num ok d) :
    Ensures num P func ok own (memory expr n) fun own' m => IsAddress P own' n.expr m := by
  unfold memory
  split
  next id n => exact Ensures.pure (.symbol n (by simp))
  next n _ =>
    apply Ensures.bind (address?_ensures rules hexpr h.succ)
    intro own' o hown ho
    cases o with
    | some t => exact Ensures.pure (ho t rfl)
    | none =>
      apply Ensures.bind (hexpr h)
      intro own'' t hown' ht
      exact Ensures.pure (.sum (.base _) (.some ht) .none)

omit rules in
theorem reg_ensures (h : n.Ready num ok d) :
    Ensures num P func ok own (do return (← expr n).map Operand.reg)
      fun own' t => ∃ x, P own' n.expr x ∧ t = ⟨x.code, Operand.reg x.result⟩ := by
  apply Ensures.bind (hexpr h)
  intro own' t hown ht
  exact Ensures.pure ⟨t, ht, rfl⟩

theorem regOrMem_ensures (h : n.Ready num ok d) :
    Ensures num P func ok own (regOrMem expr n) fun own' t => IsPlace P own' n.expr t := by
  unfold regOrMem
  split
  next id a =>
    obtain ⟨k, rfl⟩ := h.exists_succ
    apply Ensures.bind (memory_ensures rules hexpr h.mem.succ)
    intro own' m hown hm
    exact Ensures.pure (.mem hm)
  next =>
    apply (reg_ensures hexpr h).imp
    rintro own' t ⟨x, hx, rfl⟩
    exact .reg hx

omit rules in
theorem immOrReg_ensures (h : n.Ready num ok d) :
    Ensures num P func ok own (immOrReg expr n) fun own' t => IsImmOrReg P own' n.expr t := by
  have hreg : Ensures num P func ok own (do return (← expr n).map Operand.reg)
      fun own' t => IsImmOrReg P own' n.expr t := by
    apply (reg_ensures hexpr h).imp
    rintro own' t ⟨x, hx, rfl⟩
    exact .reg hx
  unfold immOrReg
  split
  next id c =>
    split
    next hc => exact Ensures.pure (.imm hc)
    next => exact hreg
  next => exact hreg

theorem operand_ensures (h : n.Ready num ok d) :
    Ensures num P func ok own (operand expr n) fun own' t => IsOperand P own' n.expr t := by
  unfold operand
  split
  next id c =>
    split
    next hc => exact Ensures.pure (.imm hc)
    next =>
      apply (reg_ensures hexpr h).imp
      rintro own' t ⟨x, hx, rfl⟩
      exact .place (.reg hx)
  next =>
    apply (regOrMem_ensures rules hexpr h).imp
    intro own' t ht
    exact .place ht

include h

theorem tileGeneric_ensures :
    Ensures num P func ok own (tileGeneric expr (.binary id op l r) op l r) fun own' o =>
      (∀ t ∈ o, P own' (.binary op l.expr r.expr) t) ∧
      (op ∈ [.add, .sub, .xor, .mul, .div, .mod] → o.isSome) := by
  have hwork : Ensures num P func ok own (do
      let res ← fresh
      let x ← operand expr l
      let y ← regOrMem expr r
      let note ← remark "generic: " (.binary id op l r)
      return (combine? op res x.result y.result).map fun tail =>
        ⟨note :: x.code ++ y.code ++ tail, res⟩) fun own' (o : Option (Tile Reg)) =>
        (∀ t ∈ o, P own' (.binary op l.expr r.expr) t) ∧
        (op ∈ [.add, .sub, .xor, .mul, .div, .mod] → o.isSome) := by
    apply Ensures.bind (Ensures.fresh rules (.binary op l.expr r.expr))
    rintro own₁ _ _ ⟨k, rfl, hk⟩
    apply Ensures.bind (operand_ensures rules hexpr h.left)
    intro own₂ x h₂ hx
    apply Ensures.bind (regOrMem_ensures rules hexpr h.right)
    intro own₃ y h₃ hy
    apply Ensures.remark h.valid
    intro text
    constructor
    · intro t ht
      obtain ⟨tail, htail, rfl⟩ := Option.map_eq_some_iff.mp ht
      exact rules.generic (h₃ _ _ (h₂ _ _ hk)) (hx.mono (rules.mono h₃)) hy htail
    · intro hop
      rw [Option.isSome_map]
      simp only [mem_cons, not_mem_nil, or_false] at hop
      rcases hop with rfl | rfl | rfl | rfl | rfl | rfl <;> rfl
  unfold tileGeneric
  split
  case h_7 hadd hsub hxor hmul hdiv hmod =>
    apply Ensures.pure
    refine ⟨nofun, ?_⟩
    intro hop
    simp only [mem_cons, not_mem_nil, or_false] at hop
    rcases hop with rfl | rfl | rfl | rfl | rfl | rfl <;> contradiction
  all_goals exact hwork

theorem tileCommutative_ensures :
    Ensures num P func ok own (tileCommutative expr (.binary id op l r) op l r) fun own' o =>
      ∀ t ∈ o, P own' (.binary op l.expr r.expr) t := by
  unfold tileCommutative
  split
  next hop =>
    apply Ensures.bind (Ensures.fresh rules (.binary op l.expr r.expr))
    rintro own₁ _ _ ⟨k, rfl, hk⟩
    apply Ensures.bind (hexpr h.right)
    intro own₂ y h₂ hy
    apply Ensures.bind (regOrMem_ensures rules hexpr h.left)
    intro own₃ x h₃ hx
    apply Ensures.remark h.valid
    intro text t ht
    obtain ⟨tail, htail, rfl⟩ := Option.map_eq_some_iff.mp ht
    exact rules.commutative (h₃ _ _ (h₂ _ _ hk)) hop (rules.mono h₃ hy) hx htail
  next => exact Ensures.pure_none

theorem tileCompare_ensures :
    Ensures num P func ok own (tileCompare expr (.binary id op l r) op l r) fun own' o =>
      (∀ t ∈ o, P own' (.binary op l.expr r.expr) t) ∧ ((cond? op).isSome → o.isSome) := by
  unfold tileCompare
  split
  next c hop =>
    apply Ensures.bind (Ensures.fresh rules (.binary op l.expr r.expr))
    rintro own₁ _ _ ⟨k, rfl, hk⟩
    apply Ensures.bind (hexpr h.left)
    intro own₂ x h₂ hx
    apply Ensures.bind (hexpr h.right)
    intro own₃ y h₃ hy
    apply Ensures.remark h.valid
    intro text
    refine ⟨?_, fun _ => rfl⟩
    rintro t ⟨⟩
    exact rules.compare (h₃ _ _ (h₂ _ _ hk)) hop (rules.mono h₃ hx) hy
  next hop => exact Ensures.pure ⟨nofun, by simp [hop]⟩

omit h

theorem tileLea_ensures (h : n.Ready num ok (d + 1)) :
    Ensures num P func ok own (tileLea expr n) fun own' o => ∀ t ∈ o, P own' n.expr t := by
  apply Ensures.bind (Ensures.fresh rules n.expr)
  rintro own₁ _ _ ⟨k, rfl, hk⟩
  apply Ensures.bind (address?_ensures rules hexpr h)
  intro own₂ o h₂ ho
  cases o with
  | none => exact Ensures.pure_none
  | some m =>
    apply Ensures.remark h.valid
    rintro text t ⟨⟩
    exact rules.lea (h₂ _ _ hk) (ho m rfl)

include h

theorem tileImul3_ensures :
    Ensures num P func ok own (tileImul3 expr (.binary id op l r) op l r) fun own' o =>
      ∀ t ∈ o, P own' (.binary op l.expr r.expr) t := by
  unfold tileImul3
  split
  next c hc =>
    obtain ⟨hr, himm⟩ := rightImm?_eq_some hc
    apply Ensures.bind (regOrMem_ensures rules hexpr h.left)
    intro own₁ x _ hx
    apply Ensures.bind (Ensures.fresh rules (.binary .mul l.expr r.expr))
    rintro own₂ _ h₂ ⟨k, rfl, hk⟩
    apply Ensures.remark h.valid
    rintro text t ⟨⟩
    rw [hr] at hk ⊢
    exact rules.imul3 hk himm (hx.mono (rules.mono h₂))
  next => exact Ensures.pure_none

theorem tileShl_ensures :
    Ensures num P func ok own (tileShl expr (.binary id op l r) op l r) fun own' o =>
      ∀ t ∈ o, P own' (.binary op l.expr r.expr) t := by
  unfold tileShl
  split
  next rid c =>
    split
    next j hj =>
      apply Ensures.bind (Ensures.fresh rules (.binary .mul l.expr (.const c)))
      rintro own₁ _ _ ⟨k, rfl, hk⟩
      apply Ensures.bind (operand_ensures rules hexpr h.left)
      intro own₂ x h₂ hx
      apply Ensures.remark h.valid
      rintro text t ⟨⟩
      exact rules.shl (h₂ _ _ hk) hj hx
    next => exact Ensures.pure_none
  next => exact Ensures.pure_none

omit h

theorem tileNode_ensures (h : n.Ready num ok (d + 1)) :
    Ensures num P func ok own (tileNode expr n) fun own' t => P own' n.expr t := by
  cases n with
  | const id v =>
    apply Ensures.bind (Ensures.fresh rules (.const v))
    rintro own' _ _ ⟨k, rfl, hk⟩
    exact Ensures.pure (rules.const hk)
  | name id n =>
    apply Ensures.bind (Ensures.fresh rules (.name n))
    rintro own' _ _ ⟨k, rfl, hk⟩
    exact Ensures.pure (rules.name hk)
  | temp id n => exact Ensures.pure rules.temp
  | mem id a =>
    apply Ensures.bind (memory_ensures rules hexpr h.mem)
    intro own₁ m _ hm
    apply Ensures.bind (Ensures.fresh rules (.mem a.expr))
    rintro own₂ _ h₂ ⟨k, rfl, hk⟩
    apply Ensures.remark h.valid
    intro text
    exact rules.mem hk (hm.mono (rules.mono h₂))
  | binary id op l r =>
    apply Ensures.bind (tileGeneric_ensures rules hexpr h)
    rintro own₁ a _ ⟨ha, hsome⟩
    apply Ensures.bind (tileCommutative_ensures rules hexpr h)
    intro own₂ b h₂ hb
    apply Ensures.bind (tileCompare_ensures rules hexpr h)
    rintro own₃ c h₃ ⟨hc, hsome'⟩
    apply Ensures.bind (tileLea_ensures rules hexpr h)
    intro own₄ m h₄ hm
    apply Ensures.bind (tileImul3_ensures rules hexpr h)
    intro own₅ e h₅ he
    apply Ensures.bind (tileShl_ensures rules hexpr h)
    intro own₆ f h₆ hf
    split
    next best hbest =>
      apply Ensures.pure
      show P own₆ (.binary op l.expr r.expr) best
      have h₄₆ := h₅.trans h₆
      have h₃₆ := h₄.trans h₄₆
      have h₂₆ := h₃.trans h₃₆
      -- The cheapest tile is one of those that were found.
      rcases Tile.mem_foldl_cheaper hbest with hmem | ⟨o, ho, hmem⟩
      · exact rules.mono (h₂.trans h₂₆) (ha best hmem)
      · simp only [mem_cons, not_mem_nil, or_false] at ho
        rcases ho with rfl | rfl | rfl | rfl | rfl
        · exact rules.mono h₂₆ (hb best hmem)
        · exact rules.mono h₃₆ (hc best hmem)
        · exact rules.mono h₄₆ (hm best hmem)
        · exact rules.mono h₆ (he best hmem)
        · exact hf best hmem
    next hnone =>
      apply Ensures.throw
      intro hok
      have hop := (h.valid hok).1
      -- Arithmetic has the general tile, and comparisons have theirs.
      have hisSome := Tile.isSome_foldl_cheaper [b, c, m, e, f] a
      rw [hnone] at hisSome
      simp only [Option.isSome_none, any_cons, any_nil, Bool.false_eq,
        Bool.or_eq_false_iff] at hisSome
      cases op with
      | other symbol => exact hop symbol rfl
      | add | sub | mul | div | mod | xor => simp [hisSome.1] at hsome
      | lt | le | gt | ge | eq | ne => simp [hisSome.2.2.1, cond?] at hsome'
  | absent =>
    apply Ensures.throw
    intro hok
    exact h.valid hok

end

section

variable {num : Numbering} {P : Owner → Expr → Tile Reg → Prop} {func : Name} {ok : Prop}
variable {own : Owner} (rules : Rules P) (shares : num.Shares P)

/-- What is remembered under a number holds of every node with the number. -/
theorem Memo.Fits.insert_expr {memo : Memo} (h : memo.Fits num P func own) {id : Nat} {e : Expr}
    {t : Tile Reg} (hid : num.expr id e) (ht : P own e t) :
    Memo.Fits num P func own { memo with exprs := memo.exprs.insert id t } := by
  refine ⟨h.issued, ?_, h.stmts⟩
  intro id' t' ht'
  rw [Std.TreeMap.getElem?_insert] at ht'
  split at ht'
  next heq =>
    cases ht'
    obtain rfl : id = id' := by simpa using heq
    exact ⟨e, hid, ht⟩
  next => exact h.exprs id' t' ht'

theorem Memo.Fits.insert_stmt {memo : Memo} (h : memo.Fits num P func own) {id : Nat}
    {s : Stmt Expr} {code : List Instr} (hid : num.stmt id s) (hs : StmtCode P own func s code) :
    Memo.Fits num P func own { memo with stmts := memo.stmts.insert id code } := by
  refine ⟨h.issued, h.exprs, ?_⟩
  intro id' code' hcode'
  rw [Std.TreeMap.getElem?_insert] at hcode'
  split at hcode'
  next heq =>
    cases hcode'
    obtain rfl : id = id' := by simpa using heq
    exact ⟨s, hid, hs⟩
  next => exact h.stmts id' code' hcode'

include shares in
theorem remembered_ensures {n : Node} {work : Selection (Tile Reg)} (h : n.Follows num)
    (hwork : ∀ {own}, Ensures num P func ok own work fun own' t => P own' n.expr t) :
    Ensures num P func ok own (remembered n work) fun own' t => P own' n.expr t := by
  unfold remembered
  split
  next =>
    apply Ensures.bind Ensures.countMiss
    intro _ _ _ _
    exact hwork
  next id hid =>
    have hnum : num.expr id n.expr := by
      cases n <;> simp only [Node.id?, Option.some.injEq, reduceCtorEq] at hid <;> subst hid
      case mem => exact h.1
      case binary => exact h.1
      all_goals exact h
    apply Ensures.bind Ensures.get
    intro own' memo hown hmemo
    split
    next t ht =>
      obtain ⟨e, he, hP⟩ := hmemo.exprs id t ht
      exact Ensures.pure (shares _ _ _ _ _ he hnum hP)
    next =>
      apply Ensures.bind Ensures.countMiss
      intro _ _ _ _
      apply Ensures.bind hwork
      intro own'' t hown' ht
      apply Ensures.bind (Ensures.modify fun memo hmemo => hmemo.insert_expr hnum ht)
      rintro _ _ _ rfl
      exact Ensures.pure ht

include rules shares in
/-- The tile of a node has one of the shapes of the rules. -/
theorem coverWithin_ensures {d : Nat} {n : Node} (h : n.Ready num ok d) :
    Ensures num P func ok own (coverWithin d n) fun own' t => P own' n.expr t := by
  induction d generalizing own n with
  | zero =>
    obtain ⟨k, hk⟩ := h.exists_succ
    cases hk
  | succ d ih =>
    apply remembered_ensures shares h.follows
    exact tileNode_ensures rules ih h

end

section

variable {num : Numbering} {P : Owner → Expr → Tile Reg → Prop} {func : Name} {ok : Prop}
variable {own : Owner} {d : Nat} {expr : Node → Selection (Tile Reg)}
variable (rules : Rules P)
variable (hexpr : ∀ {own : Owner} {n : Node}, n.Ready num ok d →
  Ensures num P func ok own (expr n) fun own' t => P own' n.expr t)

include rules hexpr

theorem callOperands_ensures {args : List Node} (h : ∀ a ∈ args, a.Ready num ok d) :
    Ensures num P func ok own (callOperands expr args) fun own' (code, operands) =>
      IsArgs P own' (args.map Node.expr) code operands := by
  induction args generalizing own with
  | nil => exact Ensures.pure .nil
  | cons a rest ih =>
    apply Ensures.bind (operand_ensures rules hexpr (h a mem_cons_self))
    intro own' t hown ht
    apply Ensures.bind (ih fun x hx => h x (mem_cons_of_mem _ hx))
    rintro own'' ⟨code, operands⟩ hown' hargs
    exact Ensures.pure (.cons (ht.mono (rules.mono hown')) hargs)

theorem tileCall_ensures {description : Bytes} {f : Node} {args : List Node}
    {result : Option Name} (hf : f.Ready num ok d) (h : ∀ a ∈ args, a.Ready num ok d) :
    Ensures num P func ok own (tileCall expr description f args result) fun own' code =>
      StmtCode P own' func (.call f.expr (args.map Node.expr) result) code := by
  have hrest : ∀ {own : Owner} (target : Tile Operand), IsCallee P own f.expr target →
      Ensures num P func ok own (do
        let (code, operands) ← callOperands expr args
        let callee ← described f.expr.describe?
        return .comment description :: target.code ++ code ++
          .comment ("calling " ++ callee) :: callCode target.result operands result ++
          [.comment ("called " ++ callee)]) fun own' code =>
        StmtCode P own' func (.call f.expr (args.map Node.expr) result) code := by
    intro own target htarget
    apply Ensures.bind (callOperands_ensures rules hexpr h)
    rintro own' ⟨code, operands⟩ hown hargs
    apply Ensures.bind (Ensures.described fun hok => (hf.valid hok).describe?)
    rintro own'' callee _ rfl
    exact Ensures.pure (.call result (htarget.mono (rules.mono hown)) hargs)
  unfold tileCall
  split
  next id n =>
    have hpure : Ensures num P func ok own (pure ⟨[], .const (.ofName n)⟩)
      fun own' (t : Tile Operand) => IsCallee P own' (.name n) t := Ensures.pure (.symbol n)
    apply Ensures.bind hpure
    intro own' target _ htarget
    exact hrest target htarget
  next hname =>
    apply Ensures.bind (operand_ensures rules hexpr hf)
    intro own' target _ htarget
    apply hrest target
    refine .operand ?_ htarget
    intro n hn
    cases f <;> simp [Node.expr] at hn
    exact hname _ _ rfl

theorem tileBranch_ensures {description : Bytes} {cond : Node} {target : Name}
    (h : cond.Ready num ok d) :
    Ensures num P func ok own (tileBranch expr description cond target) fun own' code =>
      StmtCode P own' func (.branch cond.expr target) code := by
  have htest : Ensures num P func ok own (do
      let x ← regOrMem expr cond
      return .comment description :: x.code ++ [.cmp x.result (.imm 0), .jump .jnz target])
      fun own' code => StmtCode P own' func (.branch cond.expr target) code := by
    apply Ensures.bind (regOrMem_ensures rules hexpr h)
    intro own' x hown hx
    exact Ensures.pure (.test target hx)
  unfold tileBranch
  split
  next id op l r =>
    cases hop : cond? op with
    | none => exact htest
    | some c =>
      obtain ⟨k, rfl⟩ := h.exists_succ
      apply Ensures.bind (hexpr h.left.succ)
      intro own' x hown hx
      apply Ensures.bind (immOrReg_ensures hexpr h.right.succ)
      intro own'' y hown' hy
      exact Ensures.pure (.compare target hop (rules.mono hown' hx) hy)
  next => exact htest

theorem tileStmt_ensures {s : Stmt Node} (h : ∀ n ∈ nodes s, n.Ready num ok d)
    (hvalid : ok → (s.map Node.expr).Valid) :
    Ensures num P func ok own (tileStmt expr func s) fun own' code =>
      StmtCode P own' func (s.map Node.expr) code := by
  cases s with
  | move dest src =>
    apply Ensures.bind (operand_ensures rules hexpr (h src (by simp [nodes])))
    intro own' t hown ht
    exact Ensures.pure (.move dest ht)
  | store a src =>
    apply Ensures.bind (memory_ensures rules hexpr (h a (by simp [nodes])))
    intro own' m hown hm
    apply Ensures.bind (immOrReg_ensures hexpr (h src (by simp [nodes])))
    intro own'' t hown' ht
    exact Ensures.pure (.store (hm.mono (rules.mono hown')) ht)
  | call f args result =>
    apply Ensures.bind (Ensures.described fun hok => (hvalid hok).describe?)
    intro own' description _ _
    apply tileCall_ensures rules hexpr (h f (by simp [nodes]))
    intro a ha
    exact h a (by simp [nodes, ha])
  | jump target => exact Ensures.pure (.jump target)
  | label l => exact Ensures.pure (.label l)
  | branch cond target =>
    apply Ensures.bind (Ensures.described fun hok => (hvalid hok).describe?)
    intro own' description _ _
    exact tileBranch_ensures rules hexpr (h cond (by simp [nodes]))
  | ret value =>
    apply Ensures.bind (Ensures.described fun hok => (hvalid hok).describe?)
    intro own' description _ _
    cases value with
    | none =>
      have hpure : Ensures num P func ok own' (pure ([] : List Instr))
        fun _ code => code = [] := Ensures.pure rfl
      apply Ensures.bind hpure
      rintro own'' _ _ rfl
      exact Ensures.pure .leave
    | some v =>
      apply Ensures.bind (operand_ensures rules hexpr (h v (by simp [nodes])))
      intro own'' t _ ht
      exact Ensures.pure (.ret ht)
  | absent =>
    apply Ensures.throw
    intro hok
    exact hvalid hok

end

theorem height_le_stmtHeight {s : Stmt Node} (h : n ∈ nodes s) : n.height ≤ stmtHeight s := by
  have hfoldl : ∀ (args : List Node) (m : Nat), m ≤ args.foldl (fun h a => max h a.height) m ∧
      ∀ a ∈ args, a.height ≤ args.foldl (fun h a => max h a.height) m := by
    intro args
    induction args with
    | nil => simp
    | cons a rest ih =>
      grind
  cases s with
  | call f args result =>
    rcases mem_cons.mp h with rfl | h
    · exact (hfoldl args n.height).1
    · exact (hfoldl args f.height).2 n h
  | ret value =>
    cases value with
    | none => cases h
    | some v => simp_all [nodes, stmtHeight]
  | store a src =>
    rcases mem_cons.mp h with rfl | h
    · exact Nat.le_max_left _ _
    · obtain rfl := mem_singleton.mp h
      exact Nat.le_max_right _ _
  | move dest src | branch cond target => simp_all [nodes, stmtHeight]
  | jump target | label l | absent => cases h

theorem valid_of_mem_nodes {s : Stmt Node} (h : (s.map Node.expr).Valid) (hn : n ∈ nodes s) :
    n.expr.Valid := by
  cases s with
  | call f args result =>
    rcases mem_cons.mp hn with rfl | hn
    · exact h.1
    · exact h.2 n.expr (mem_map_of_mem hn)
  | ret value =>
    cases value with
    | none => cases hn
    | some v =>
      obtain rfl := mem_singleton.mp hn
      exact h
  | store a src =>
    rcases mem_cons.mp hn with rfl | hn
    · exact h.1
    · obtain rfl := mem_singleton.mp hn
      exact h.2
  | move dest src | branch cond target =>
    obtain rfl := mem_singleton.mp hn
    exact h
  | jump target | label l | absent => cases hn

section

variable {num : Numbering} {P : Owner → Expr → Tile Reg → Prop} {func : Name} {ok : Prop}
variable {own : Owner}

/-- Code that a statement with the number may have become. -/
def IsCode (num : Numbering) (P : Owner → Expr → Tile Reg → Prop) (func : Name) (own : Owner)
    (s : NodeStmt) (code : List Instr) : Prop :=
  ∃ plain, num.stmt s.id plain ∧ StmtCode P own func plain code

variable (rules : Rules P) (shares : num.Shares P)

include rules shares

theorem coverStmt_ensures {s : NodeStmt} (h : s.Follows num) (hvalid : ok → s.plain.Valid) :
    Ensures num P func ok own (coverStmt func s) fun own' code =>
      IsCode num P func own' s code := by
  have hready : ∀ n ∈ nodes s.stmt, n.Ready num ok (stmtHeight s.stmt) := by
    intro n hn
    exact ⟨h.2 n hn, height_le_stmtHeight hn, fun hok => valid_of_mem_nodes (hvalid hok) hn⟩
  have hmiss : ∀ {own}, Ensures num P func ok own (do
      countMiss
      let code ← tileStmt (coverWithin (stmtHeight s.stmt)) func s.stmt
      modify fun memo => { memo with stmts := memo.stmts.insert s.id code }
      return code) fun own' code => IsCode num P func own' s code := by
    intro own
    apply Ensures.bind Ensures.countMiss
    intro _ _ _ _
    apply Ensures.bind (tileStmt_ensures rules (coverWithin_ensures rules shares) hready hvalid)
    intro own' code _ hcode
    apply Ensures.bind (Ensures.modify fun memo hmemo => hmemo.insert_stmt h.1 hcode)
    rintro _ _ _ rfl
    exact Ensures.pure ⟨s.plain, h.1, hcode⟩
  apply Ensures.bind Ensures.get
  intro own' memo _ hmemo
  split
  next => exact hmiss
  next => exact hmiss
  next hcode _ => exact Ensures.pure (hmemo.stmts s.id _ hcode)

theorem mapM_coverStmt_ensures {body : List NodeStmt} (h : ∀ s ∈ body, s.Follows num)
    (hvalid : ok → ∀ s ∈ body, s.plain.Valid) :
    Ensures num P func ok own (body.mapM (coverStmt func)) fun own' codes =>
      List.Forall₂ (IsCode num P func own') body codes := by
  induction body generalizing own with
  | nil => exact Ensures.pure .nil
  | cons s rest ih =>
    rw [mapM_cons]
    apply Ensures.bind (coverStmt_ensures rules shares (h s mem_cons_self)
      fun hok => hvalid hok s mem_cons_self)
    rintro own' code _ ⟨plain, hplain, hcode⟩
    apply Ensures.bind (ih (fun s hs => h s (mem_cons_of_mem _ hs))
      fun hok s hs => hvalid hok s (mem_cons_of_mem _ hs))
    intro own'' codes hown hcodes
    exact Ensures.pure (.cons ⟨plain, hplain, hcode.mono (rules.mono hown)⟩ hcodes)

/-- A body becomes the code of its statements one after another and the label that its
returns jump to. -/
theorem coverBody_ensures {body : List NodeStmt} (h : ∀ s ∈ body, s.Follows num)
    (hvalid : ok → ∀ s ∈ body, s.plain.Valid) :
    Ensures num P func ok own (coverBody func body) fun own' code => ∃ codes,
      code = codes.flatten ++ [.label (epilogueLabel func)] ∧
      List.Forall₂ (IsCode num P func own') body codes := by
  apply Ensures.bind (mapM_coverStmt_ensures rules shares h hvalid)
  intro own' codes _ hcodes
  exact Ensures.pure ⟨codes, rfl, hcodes⟩

end

/-- Nothing remembered fits whatever the rules. -/
theorem Memo.fits_empty (num : Numbering) (P : Owner → Expr → Tile Reg → Prop) (func : Name) :
    Memo.Fits num P func (fun _ => none) .empty := by
  refine ⟨nofun, ?_, ?_⟩
  · intro id t ht
    simp [Memo.empty] at ht
  · intro id code hcode
    simp [Memo.empty] at hcode

/-- The code of a body's statements, for rules that do not depend on the expressions. -/
theorem exists_codes_of_coverBody {P : Owner → Expr → Tile Reg → Prop} (rules : Rules P)
    (hP : ∀ {own e e' t}, P own e t → P own e' t) {func : Name} {body : List NodeStmt}
    {Q : Stmt Expr → Prop} (hbody : ∀ s ∈ body, Q s.plain) {code : List Instr} {memo : Memo}
    (h : (coverBody func body).run.run .empty = (.ok code, memo)) :
    ∃ own codes, code = codes.flatten ++ [.label (epilogueLabel func)] ∧
      List.Forall₂ (fun _ code => ∃ s, Q s ∧ StmtCode P own func s code) body codes := by
  let num : Numbering := { expr := fun _ _ => True, stmt := fun _ => Q }
  have hfollows : ∀ n : Node, n.Follows num := by
    intro n
    induction n with
    | mem id a ih => exact ⟨trivial, ih⟩
    | binary id op l r ihl ihr => exact ⟨trivial, ihl, ihr⟩
    | _ => trivial
  have hensures : Ensures num P func False (fun _ => none) (coverBody func body) _ :=
    coverBody_ensures rules (fun _ _ _ _ _ _ _ => hP)
      (fun s hs => ⟨hbody s hs, fun n _ => hfollows n⟩) False.elim
  have hend := hensures .empty (Memo.fits_empty num P func)
  rw [h] at hend
  obtain ⟨own, _, _, codes, rfl, hcodes⟩ := hend
  exact ⟨own, codes, rfl, hcodes⟩

end X64Backend.Select
