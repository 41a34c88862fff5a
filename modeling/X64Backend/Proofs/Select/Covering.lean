import X64Backend.Proofs.Select.Operands

/-! # Selected tiles are right

The code behind the operands of a tile works their values into the tile's register. So
every tile that selection makes of an expression computes it.
-/

namespace X64Backend.Select

open Asm Code Machine

theorem toBitVec_of_exponent? {c : Int64} {j : Nat} (h : exponent? c = some j) :
    c.toBitVec = BitVec.twoPow 64 j ∧ j < 63 := by
  unfold exponent? at h
  split at h
  case isFalse => cases h
  case isTrue hc =>
    obtain rfl := Option.some.inj h
    simp only [Bool.and_eq_true, decide_eq_true_eq, beq_iff_eq] at hc
    obtain ⟨hpos, hand⟩ := hc
    have hpos : (0 : Int) < c.toBitVec.toInt := Int64.lt_iff_toInt_lt.mp hpos
    have hnat : c.toBitVec.toNat = c.toInt.toNat ∧ c.toBitVec.toNat < 2 ^ 63 ∧
        1 ≤ c.toBitVec.toNat := by
      have hcond := BitVec.toInt_eq_toNat_cond c.toBitVec
      have hlt := c.toBitVec.isLt
      show _ = c.toBitVec.toInt.toNat ∧ _
      split at hcond <;> omega
    obtain ⟨hnat, hlt, hle⟩ := hnat
    -- in the natural numbers, a number that shares no bit with its predecessor is a power of two
    have hpow : c.toBitVec.toNat &&& (c.toBitVec.toNat - 1) = 0 := by
      have := congrArg (fun v => v.toBitVec.toNat) hand
      simp only [Int64.toBitVec_and, Int64.toBitVec_sub, BitVec.toNat_and] at this
      rwa [BitVec.toNat_sub_of_le (by simpa [BitVec.le_def] using hle)] at this
    obtain ⟨m, hm⟩ := (Nat.and_sub_one_eq_zero_iff_isPowerOfTwo (by omega)).mp hpow
    rw [← hnat, hm, Nat.log2_two_pow]
    have hm63 : m < 63 := (Nat.pow_lt_pow_iff_right (by decide)).mp (hm ▸ hlt)
    refine ⟨BitVec.eq_of_toNat_eq ?_, hm63⟩
    rw [hm, BitVec.toNat_twoPow, Nat.mod_eq_of_lt]
    exact Nat.pow_lt_pow_right (by decide) (by omega)

/-- A shift by the exponent of a power of two is a product with it. -/
theorem shiftLeft_of_exponent? {c : Int64} {j : Nat} (h : exponent? c = some j) (v : Int64) :
    v <<< (Int64.ofNat j &&& 63) = v * c := by
  obtain ⟨hc, hj⟩ := toBitVec_of_exponent? h
  have hcount : ∀ i : Fin 63,
      (Int64.ofNat i &&& 63).toBitVec.smod 64 = BitVec.ofNat 64 i := by decide
  apply Int64.toBitVec_inj.mp
  rw [Int64.toBitVec_shiftLeft, Int64.toBitVec_mul, hc, hcount ⟨j, hj⟩,
    BitVec.shiftLeft_eq', BitVec.toNat_ofNat, Nat.mod_eq_of_lt (by simp; omega),
    BitVec.shiftLeft_eq_mul_twoPow]

section

variable {S : Setting} {k : Nat} {goal : Option Int64} {code : List Instr} {s : State}
variable {r : Reg} {x y : Operand} {a b : Option Int64} {op : Op}

theorem Writes.advance_set (s : State) (v : Int64) (hr : r = .issued k ∨ r = .rax ∨ r = .rdx) :
    Writes k s (s.advance.set r v) :=
  (Writes.advance s).trans (Writes.set s.advance v hr)

theorem Setting.mov_yields {dst : Reg} (hdst : dst = .issued k ∨ dst = .rax ∨ dst = .rdx)
    (hx : S.operand? s x = a) (hnone : a = none → goal = none)
    (hrest : ∀ v, a = some v → S.Yields k goal code (s.advance.set dst v)) :
    S.Yields k goal (.mov (.reg dst) x :: code) s := by
  cases a with
  | none => exact .inr ⟨hnone rfl, fun hstrict => S.mov_fails hstrict hx⟩
  | some v => exact (hrest v rfl).step (S.mov_runs hx) (.advance_set s v hdst)

theorem Setting.movReg_yields (hgoal : goal = S.operand? s x) :
    S.Yields k goal [.mov (.reg (.issued k)) x] s := by
  subst hgoal
  cases hx : S.operand? s x with
  | none => exact .inr ⟨rfl, fun hstrict => S.mov_fails hstrict hx⟩
  | some v =>
    refine .last (S.mov_runs hx) (.advance_set s _ (.inl rfl)) ?_
    rw [State.get_set_self]

theorem Setting.copy_yields (hgoal : goal = some (s.get r)) :
    S.Yields k goal [.copy (.issued k) r] s :=
  S.movReg_yields hgoal

theorem Setting.arith_yields {op : Arith} (hy : S.operand? s y = b) (hnone : b = none → goal = none)
    (hsome : ∀ w, b = some w → ∃ v, op.result? (s.get (.issued k)) w = some v ∧ goal = some v) :
    S.Yields k goal [.arith op (.reg (.issued k)) y] s := by
  cases b with
  | none => exact .inr ⟨hnone rfl, fun hstrict => S.arith_fails hstrict hy⟩
  | some w =>
    obtain ⟨v, hop, hgoal⟩ := hsome w rfl
    refine .last (S.arith_runs hy hop) (.advance_set s v (.inl rfl)) ?_
    rw [hgoal, State.get_set_self]

theorem Setting.imul_yields (hy : S.operand? s y = b)
    (hgoal : goal = b.map (s.get (.issued k) * ·)) : S.Yields k goal [.imul (.issued k) y] s := by
  subst hgoal
  cases b with
  | none => exact .inr ⟨rfl, fun hstrict => S.imul_fails hstrict hy⟩
  | some w =>
    refine .last (S.imul_runs hy) (.advance_set s _ (.inl rfl)) ?_
    rw [State.get_set_self, Option.map_some]

theorem Setting.imul3_yields {c : Int64} (hx : S.operand? s x = a) (hgoal : goal = a.map (· * c)) :
    S.Yields k goal [.imul3 (.issued k) x c] s := by
  subst hgoal
  cases a with
  | none => exact .inr ⟨rfl, fun hstrict => S.imul3_fails c hstrict hx⟩
  | some w =>
    refine .last (S.imul3_runs c hx) (.advance_set s _ (.inl rfl)) ?_
    rw [State.get_set_self, Option.map_some]

theorem Setting.lea_yields {m : Mem} (hgoal : goal = (S.img.address s m).toOption) :
    S.Yields k goal [.lea (.issued k) m] s := by
  subst hgoal
  cases h : S.img.address s m with
  | error t => exact .inr ⟨rfl, fun _ => S.lea_fails (by rw [h]; rfl)⟩
  | ok a =>
    refine .last (S.lea_runs h) (.advance_set s _ (.inl rfl)) ?_
    rw [State.get_set_self]
    rfl

/-- Division leaves the quotient in one register and the remainder in another. -/
theorem Setting.idiv_yields (hy : ∀ s', Writes k s s' → S.operand? s' y = b)
    (hnone : b = none ∨ b = some 0 → goal = none)
    (hsome : ∀ w, b = some w → w ≠ 0 →
      goal = some (((s.set .rax (s.get .rax / w)).set .rdx (s.get .rax % w)).get r)) :
    S.Yields k goal [.cqo, .idiv y, .copy (.issued k) r] s := by
  have hcqo : Seq S.img S.ok [.cqo] s (s.advance.set .rdx (if s.get .rax < 0 then -1 else 0)) :=
    S.runs_of_words rfl rfl rfl rfl
  have hw := Writes.advance_set (k := k) s (if s.get .rax < 0 then -1 else 0)
    (r := .rdx) (.inr (.inr rfl))
  refine .step hcqo hw ?_
  have hy := hy _ hw
  by_cases hzero : b = none ∨ b = some 0
  · refine .inr ⟨hnone hzero, fun hstrict => S.idiv_fails hstrict ?_⟩
    rwa [hy]
  · cases b with
    | none => exact absurd (.inl rfl) hzero
    | some w =>
      have hne : w ≠ 0 := fun h => hzero (.inr (by rw [h]))
      refine .step (S.idiv_runs hy hne) ?_ (S.copy_yields ?_)
      · exact (Writes.advance_set _ _ (.inr (.inl rfl))).trans (.set _ _ (.inr (.inr rfl)))
      · rw [hsome w rfl hne]
        have hrax (v : Int64) : (s.advance.set .rdx v).get .rax = s.get .rax :=
          State.get_set_of_ne _ _ (by decide)
        rw [hrax]
        by_cases hr : Reg.rdx = r <;> simp [State.get_set, hr]

theorem Setting.shl_yields {c : Int64} {j : Nat} (hc : exponent? c = some j)
    (hgoal : goal = some (s.get (.issued k) * c)) :
    S.Yields k goal [.shl (.reg (.issued k)) (Int64.ofNat j)] s := by
  have hexec : S.img.exec s.advance (.shl (.reg (.issued k)) (Int64.ofNat j)) =
      .ok (s.advance.set (.issued k) (s.get (.issued k) * c)) := by
    rw [Image.exec, ← shiftLeft_of_exponent? hc]
    rfl
  refine .last (S.runs_of_words rfl rfl rfl hexec) (.advance_set s _ (.inl rfl)) ?_
  rw [hgoal, State.get_set_self]

/-- The condition of a comparison holds just if the comparison is not zero. -/
theorem holds_of_cond? {c : Cond} (h : cond? op = some c) (a b : Int64) :
    ∃ t, c.holds a b = .ok t ∧ Meaning.evalOp op a b = .ok (Meaning.ofBool t) := by
  cases op <;> cases h <;> exact ⟨_, rfl, rfl⟩

theorem Setting.compare_yields {c : Cond} {x y : Reg} (hop : cond? op = some c)
    (hgoal : goal = (Meaning.evalOp op (s.get x) (s.get y)).toOption) :
    S.Yields k goal [.cmp (.reg x) (.reg y), .set c .rax, .copy (.issued k) .rax] s := by
  obtain ⟨t, hholds, heval⟩ := holds_of_cond? hop (s.get x) (s.get y)
  have hcmp : Seq S.img S.ok [.cmp (.reg x) (.reg y)] s
      { s.advance with left := s.get x, right := s.get y } :=
    S.runs_of_words rfl rfl rfl rfl
  refine .step hcmp ⟨rfl, rfl, rfl, fun _ _ _ _ => rfl⟩ ?_
  generalize hs₁ : ({ s.advance with left := s.get x, right := s.get y } : State) = s₁
  have hset : S.img.exec s₁.advance (.set c .rax) =
      .ok (if t then (s₁.advance.set .rax 0).set .rax 1 else s₁.advance.set .rax 0) := by
    have : c.holds s₁.left s₁.right = .ok t := by
      rw [← hs₁]
      exact hholds
    cases t <;> simp [Image.exec, this]
  refine .step (S.runs_of_words rfl rfl rfl hset) ?_ (S.copy_yields ?_)
  · cases t with
    | false => exact .advance_set s₁ 0 (.inr (.inl rfl))
    | true =>
      exact (Writes.advance_set s₁ 0 (.inr (.inl rfl))).trans (.set _ 1 (.inr (.inl rfl)))
  · rw [hgoal, heval]
    cases t <;> simp [Except.toOption, Meaning.ofBool]

/-- The code of an operation yields its value. -/
theorem Setting.combine_yields {tail : List Instr} (htail : combine? op (.issued k) x y = some tail)
    (hxy : ∀ s', Writes k s s' → S.operand? s' x = a ∧ S.operand? s' y = b)
    (hgoal : goal = do (Meaning.evalOp op (← a) (← b)).toOption) : S.Yields k goal tail s := by
  have hx := (hxy s (.refl s)).1
  have hnone : a = none → goal = none := by
    rintro rfl
    exact hgoal
  have hy (r : Reg) (v : Int64) (hr : r = .issued k ∨ r = .rax ∨ r = .rdx) :=
    (hxy _ (.advance_set s v hr)).2
  -- The result is worked out in the register that gets it.
  have harith {ar : Arith} (har : ∀ v w, ∃ u, ar.result? v w = some u ∧
      Meaning.evalOp op v w = .ok u) :
      S.Yields k goal [.mov (.reg (.issued k)) x, .arith ar (.reg (.issued k)) y] s := by
    refine S.mov_yields (.inl rfl) hx hnone ?_
    rintro v rfl
    refine S.arith_yields (hy _ v (.inl rfl)) ?_ ?_
    · rintro rfl
      exact hgoal
    · rintro w rfl
      rw [State.get_set_self]
      obtain ⟨u, hu, heval⟩ := har v w
      refine ⟨u, hu, ?_⟩
      rw [hgoal]
      simp [heval, Except.toOption]
  -- A division leaves its results in two registers and fails for zero.
  have hdiv {r : Reg} (hzero : ∀ v, Meaning.evalOp op v 0 = .error (.trap .divisionByZero))
      (hr : ∀ s' v w, w ≠ 0 → Meaning.evalOp op v w =
        .ok (((State.set s' .rax (v / w)).set .rdx (v % w)).get r)) :
      S.Yields k goal [.mov (.reg .rax) x, .cqo, .idiv y, .copy (.issued k) r] s := by
    refine S.mov_yields (.inr (.inl rfl)) hx hnone ?_
    rintro v rfl
    have hw := Writes.advance_set (k := k) s v (r := .rax) (.inr (.inl rfl))
    refine S.idiv_yields (fun s' hw' => (hxy s' (hw.trans hw')).2) ?_ ?_
    · rintro (rfl | rfl)
      · exact hgoal
      · rw [hgoal]
        simp [hzero, Except.toOption]
    · grind [State.get_set_self, Except.toOption]
  unfold combine? at htail
  split at htail
  case h_1 =>
    cases htail
    exact harith fun v w => ⟨_, rfl, rfl⟩
  case h_2 =>
    cases htail
    exact harith fun v w => ⟨_, rfl, rfl⟩
  case h_3 =>
    cases htail
    exact harith fun v w => ⟨_, rfl, rfl⟩
  case h_4 =>
    cases htail
    refine S.mov_yields (.inl rfl) hx hnone ?_
    rintro v rfl
    refine S.imul_yields (hy _ v (.inl rfl)) ?_
    rw [State.get_set_self, hgoal]
    cases b <;> rfl
  case h_5 =>
    cases htail
    refine hdiv (fun v => rfl) fun s' v w hw => ?_
    simp [Meaning.evalOp, hw, State.get_set]
  case h_6 =>
    cases htail
    refine hdiv (fun v => rfl) fun s' v w hw => ?_
    simp [Meaning.evalOp, hw]
  case h_7 => cases htail

end

theorem evalOp_comm {op : Op} (h : op.isCommutative = true) (a b : Int64) :
    Meaning.evalOp op a b = Meaning.evalOp op b a := by
  cases op <;> cases h
  · simp [Meaning.evalOp, Int64.add_comm]
  · simp [Meaning.evalOp, Int64.mul_comm]
  · simp [Meaning.evalOp, Int64.xor_comm]

section

variable {S : Setting} {own : Owner} {k : Nat} {e : Expr} {text : Bytes}

/-- One instruction that puts an expression into a register. -/
theorem Setting.computes_single {x : Instr} (hk : own k = some e) (he : TempNamed e)
    (hyields : ∀ s s', S.Yields k (S.value s e) [x] s') :
    S.Computes own e [x] fun s => some (s.get (.issued k)) := by
  have hnil : S.Prepares own (fun _ => False) [] (fun _ _ => True) (fun _ => False) :=
    .nil fun _ _ _ _ _ => trivial
  exact hnil.tile hk he nofun fun s s' _ => hyields s s'

theorem Setting.isTile_of_computes {code : List Instr}
    (h : TempNamed e → S.Computes own e code fun s => some (s.get (.issued k))) :
    S.IsTile own e ⟨code, .issued k⟩ :=
  fun he => ⟨⟨_, List.append_ne_nil_of_left_ne_nil (by decide) _, rfl⟩, h he⟩

/-- Code that computes an expression and one more instruction that puts it into a register. -/
theorem Setting.Computes.put {code : List Instr} {x : Instr} {read : State → Option Int64}
    (h : S.Computes own e code read) (hk : own k = some e) (he : TempNamed e)
    (hyields : ∀ s, S.Yields k (read s) [x] s) :
    S.Computes own e (.comment text :: code ++ [x]) fun s => some (s.get (.issued k)) := by
  refine (h.tile hk he (fun _ hnone => hnone) ?_).comment text he
  intro s s' hread
  rw [← hread s' (.refl s')]
  exact hyields s'

/-- Code that computes two operands and code that combines them. -/
theorem Setting.Computes.combine {op : Op} {l r x y : Expr} {a b tail : List Instr}
    {read read' : State → Option Int64} (hx : S.Computes own x a read)
    (hy : S.Computes own y b read') (hk : own k = some (.binary op l r))
    (he : TempNamed (.binary op l r)) (hxy : x = l ∧ y = r ∨ x = r ∧ y = l)
    (htail : ∀ s s', (∀ s'', Writes k s' s'' → read s'' = S.value s x ∧ read' s'' = S.value s y) →
      S.Yields k (S.value s (.binary op l r)) tail s') :
    S.Computes own (.binary op l r) (.comment text :: a ++ b ++ tail)
      fun s => some (s.get (.issued k)) := by
  have hwy : TempNamed y := by
    rcases hxy with ⟨rfl, rfl⟩ | ⟨rfl, rfl⟩
    · exact he.2
    · exact he.1
  have hsize : sizeOf x < sizeOf (Expr.binary op l r) ∧ sizeOf y < sizeOf (Expr.binary op l r) := by
    simp only [Expr.binary.sizeOf_spec]
    rcases hxy with ⟨rfl, rfl⟩ | ⟨rfl, rfl⟩ <;> omega
  refine ((hx.append hy hwy).tile hk he ?_ ?_).comment text he
  · grind [S.value_binary_of_none]
  · intro s s' hread
    exact htail s s' fun s'' hw => hread s'' (hw.keeps hk hsize)

end

/-- The shapes of tiles keep their being right. -/
theorem Setting.rules (S : Setting) : Rules S.IsTile where
  mono hown h he := ⟨(h he).1, (h he).2.mono hown⟩
  const {own k v} hk := by
    refine S.isTile_of_computes fun he => ?_
    unfold Instr.load
    split
    · exact S.computes_single hk he fun s s' => S.movReg_yields rfl
    · refine S.computes_single hk he fun s s' => ?_
      exact .last (S.runs_of_words rfl rfl rfl rfl) (.advance_set s' v (.inl rfl))
        (by rw [State.get_set_self]; rfl)
  name {own k n} hk := by
    refine S.isTile_of_computes fun he => S.computes_single hk he fun s s' => ?_
    exact S.lea_yields (S.address_atSymbol he s s').symm
  temp {own n} := by
    intro he
    refine ⟨⟨n, he.ne_nil, he.ofName_eq⟩, .nil ?_⟩
    intro s own' _ s' hkeeps
    exact congrArg some (hkeeps.get_user he)
  mem {own k a m text} hk hm := by
    refine S.isTile_of_computes fun he => ?_
    refine (S.place_computes (.mem hm) he).put hk he fun s => ?_
    exact S.movReg_yields rfl
  generic {own k op l r x y tail text} hk hx hy htail := by
    refine S.isTile_of_computes fun he => ?_
    refine (S.operand_computes hx he.1).combine (S.place_computes hy he.2) hk he (.inl ⟨rfl, rfl⟩)
      fun s s' hread => ?_
    exact S.combine_yields htail hread rfl
  commutative {own k op l r y x tail text} hk hop hy hx htail := by
    refine S.isTile_of_computes fun he => ?_
    refine (hy he.2).2.combine (S.place_computes hx he.1) hk he (.inr ⟨rfl, rfl⟩)
      fun s s' hread => ?_
    refine S.combine_yields htail hread ?_
    simp only [Setting.value]
    cases S.value s l <;> cases S.value s r <;> simp [evalOp_comm hop]
  compare {own k op c l r x y text} hk hop hx hy := by
    refine S.isTile_of_computes fun he => ?_
    refine (hx he.1).2.combine (hy he.2).2 hk he (.inl ⟨rfl, rfl⟩)
      fun s s' hread => ?_
    obtain ⟨hl, hr⟩ := hread s' (.refl s')
    exact S.compare_yields hop (S.value_binary hl.symm hr.symm)
  lea {own k e m text} hk hm := by
    refine S.isTile_of_computes fun he => ?_
    exact (S.address_computes hm he).put hk he fun s => S.lea_yields rfl
  imul3 {own k l c x text} hk hc hx := by
    refine S.isTile_of_computes fun he => ?_
    rw [← List.append_nil (_ :: x.code)]
    refine (S.place_computes hx he.1).combine (S.imm_computes c) hk he (.inl ⟨rfl, rfl⟩)
      fun s s' hread => ?_
    refine S.imul3_yields (hread s' (.refl s')).1 ?_
    simp only [Setting.value]
    cases S.value s l <;> rfl
  shl {own k j l c x text} hk hc hx := by
    refine S.isTile_of_computes fun he => ?_
    rw [← List.append_nil (_ :: x.code)]
    refine (S.operand_computes hx he.1).combine (S.imm_computes c) hk he (.inl ⟨rfl, rfl⟩)
      fun s s' hread => ?_
    refine S.mov_yields (.inl rfl) (hread s' (.refl s')).1 ?_ ?_
    · intro hnone
      exact S.value_binary_of_none (.inl hnone)
    · intro v hv
      refine S.shl_yields hc ?_
      rw [State.get_set_self]
      exact S.value_binary hv rfl

end X64Backend.Select
