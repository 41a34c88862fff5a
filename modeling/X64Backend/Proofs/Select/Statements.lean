import X64Backend.Proofs.Select.Covering

/-! # Selected statements are right

What a statement without calls does to temporaries and memory, and how it is left. Its
code does the same: it runs to its end or jumps, or it fails where the statement does.
-/

namespace X64Backend.Select

open Asm Code Machine

/-- What a statement does: where it jumps, if it does, the words of temporaries and the
memory behind it, and the word that it returns. -/
structure Effect where
  exit : Option Name
  temps : Name → Int64
  memory : Memory
  result : Option Int64

/-- The state that a statement leaves behind. -/
structure Effect.Leaves (x : Effect) (s s' : State) : Prop where
  memory : s'.memory = x.memory
  heap : s'.heap = s.heap
  output : s'.output = s.output
  user {t : Name} (ht : UserName t) : s'.get (.ofName t) = x.temps t
  machine {r : MachineReg} (hrax : r ≠ .rax) (hrdx : r ≠ .rdx) :
    s'.get (.machine r) = s.get (.machine r)
  result (v : Int64) (h : x.result = some v) : s'.get .rax = v

/-- The effect of a statement of a function in a state. Calls have none here. -/
def Setting.effect (S : Setting) (func : Name) (s : State) : Stmt Expr → Option Effect :=
  let temps (t : Name) : Int64 := s.get (.ofName t)
  fun
  | .move dest src => do
    let v ← S.value s src
    return ⟨none, fun t => if t = dest then v else temps t, s.memory, none⟩
  | .store a src => do
    let address ← S.value s a
    let v ← S.value s src
    let _ ← S.load? s.memory address
    return ⟨none, temps, s.memory.write address v, none⟩
  | .jump l => some ⟨some l, temps, s.memory, none⟩
  | .label _ => some ⟨none, temps, s.memory, none⟩
  | .branch cond l => do
    let v ← S.value s cond
    return ⟨if v = 0 then none else some l, temps, s.memory, none⟩
  | .ret none => some ⟨some (epilogueLabel func), temps, s.memory, none⟩
  | .ret (some e) => do
    let v ← S.value s e
    return ⟨some (epilogueLabel func), temps, s.memory, some v⟩
  | .call _ _ _ | .absent => none

/-- Code runs to its end, or its last instruction jumps or does not. -/
inductive Setting.Ends (S : Setting) : List Instr → State → Option Name → State → Prop
  | falls {code : List Instr} {s s' : State} (h : Seq S.img S.ok code s s') : Ends S code s none s'
  | jumps {code : List Instr} {c : Cond} {l : Name} {s s' : State} (h : Seq S.img S.ok code s s')
      (hc : c.holds s'.left s'.right = .ok true) : Ends S (code ++ [.jump c l]) s (some l) s'
  | passes {code : List Instr} {c : Cond} {l : Name} {s s' : State} (h : Seq S.img S.ok code s s')
      (hc : c.holds s'.left s'.right = .ok false) : Ends S (code ++ [.jump c l]) s none s'.advance

/-- The code does what is to be done, or fails if that is nothing. -/
def Setting.Does (S : Setting) (x : Option Effect) (code : List Instr) (s : State) : Prop :=
  (∃ y s', x = some y ∧ S.Ends code s y.exit s' ∧ y.Leaves s s') ∨
    (x = none ∧ (S.strict → Fails S.img code s))

section

variable {S : Setting} {own : Owner} {s : State} {e : Expr} {code : List Instr}
variable {t : Tile Operand} {x : Operand} {text : Bytes}

/-- Code that computes an expression, looked at when it has run. -/
theorem Setting.Computes.cases {read : State → Option Int64} (h : S.Computes own e code read)
    (s : State) : (∃ s', Seq S.img S.ok code s s' ∧ S.Keeps own (fun _ => False) s s' ∧
      read s' = S.value s e) ∨ (S.value s e = none ∧ (S.strict → Fails S.img code s)) := by
  rcases h s with ⟨s', hseq, hkeeps, hread⟩ | hnone
  · exact .inl ⟨s', hseq, hkeeps, hread own (.refl own) s' (.refl s')⟩
  · exact .inr hnone

theorem Setting.Keeps.leaves {free : Expr → Prop} {s' : State} (h : S.Keeps own free s s')
    {exit : Option Name} {left right : Int64} {ip : Int} {steps : Nat} :
    (⟨exit, fun t => s.get (.ofName t), s.memory, none⟩ : Effect).Leaves s
      { s' with left, right, ip, steps } where
  memory := h.memory
  heap := h.heap
  output := h.output
  user ht := h.get_user ht.tempName
  machine hrax hrdx := h.get_machine hrax hrdx
  result _ hv := by cases hv

theorem UserName.ofName_inj {t u : Name} (ht : UserName t) (hu : UserName u)
    (h : Reg.ofName t = Reg.ofName u) : t = u := by
  rw [ht.ofName_eq, hu.ofName_eq] at h
  exact Reg.abstract.inj h

theorem Setting.move_does {src : Expr} (func dest : Name) (h : IsOperand S.IsTile own src t)
    (hsrc : TempNamed src) (hdest : UserName dest) (s : State) :
    S.Does (S.effect func s (.move dest src))
      (t.code ++ [.mov (.reg (.ofName dest)) t.result]) s := by
  rcases (S.operand_computes h hsrc).cases s with ⟨s', hseq, hkeeps, hread⟩ | ⟨hnone, hfails⟩
  · cases hv : S.value s src with
    | none =>
      refine .inr ⟨by simp [Setting.effect, hv], fun hstrict => ?_⟩
      exact hseq.fails_append (S.mov_fails hstrict (hread.trans hv))
    | some v =>
      refine .inl ⟨_, _, by simp only [Setting.effect, hv]; rfl,
        .falls (hseq.append (S.mov_runs (hread.trans hv))), ?_⟩
      refine ⟨hkeeps.memory, hkeeps.heap, hkeeps.output, ?_, ?_, nofun⟩
      · intro u hu
        by_cases heq : u = dest
        · subst heq
          simp
        · grind [State.get_set_of_ne, hu.ofName_inj, State.get_advance, hkeeps.get_user,
            hu.tempName]
      · intro r hrax hrdx
        rw [State.get_set_of_ne _ _ (hdest.tempName.ofName_ne_machine r), State.get_advance]
        exact hkeeps.get_machine hrax hrdx
  · refine .inr ⟨by simp [Setting.effect, hnone], fun hstrict => ?_⟩
    exact (hfails hstrict).append_left

theorem Setting.store_runs {m : Mem} {a v : Int64} (ha : (S.img.address s m).toOption = some a)
    (hx : S.operand? s x = some v) (hload : S.load? s.memory a ≠ none) :
    Seq S.img S.ok [.mov (.mem m) x] s { s.advance with memory := s.memory.write a v } := by
  obtain ⟨w, hw⟩ := Option.ne_none_iff_exists'.mp hload
  obtain ⟨hcheck, hlt, _⟩ := Setting.load?_eq_some.mp hw
  obtain ⟨hvalue, hwords⟩ := S.value_of_operand? hx
  have haddress := toOption_eq_some.mp ha
  refine .single rfl (S.allows s _ rfl rfl ?_) ?_
  · intro m' hm' a' ha'
    rcases List.mem_append.mp hm' with hm' | hm'
    · obtain rfl := List.mem_singleton.mp hm'
      rw [haddress] at ha'
      cases ha'
      exact hlt
    · exact hwords m' hm' a' ha'
  · simp only [Image.exec, use_eq_ok, orElse_eq_ok, Image.value_advance, assign_mem_eq_ok,
      Image.address_advance]
    exact ⟨v, hvalue, a, haddress, hcheck, rfl⟩

theorem Setting.store_fails {m : Mem} (hstrict : S.strict)
    (h : ∀ a v, (S.img.address s m).toOption = some a → S.operand? s x = some v →
      S.load? s.memory a = none) :
    Fails S.img [.mov (.mem m) x] s := by
  cases hexec : S.img.exec s.advance (.mov (.mem m) x) with
  | error e => exact .here hexec
  | ok s' =>
    exfalso
    simp only [Image.exec, use_eq_ok, orElse_eq_ok, Image.value_advance, assign_mem_eq_ok,
      Image.address_advance] at hexec
    obtain ⟨v, hvalue, a, ha, hcheck, _⟩ := hexec
    cases hx : S.operand? s x with
    | none =>
      obtain ⟨t, ht⟩ := S.value_of_operand?_eq_none hstrict hx
      rw [ht] at hvalue
      cases hvalue
    | some w =>
      have hload := h a w (toOption_eq_some.mpr ha) hx
      obtain ⟨t, ht⟩ := Setting.checkAddress_of_load? hstrict hload
      rw [ht] at hcheck
      cases hcheck

theorem Setting.store_does {a src : Expr} {m : Tile Mem} (func : Name)
    (hm : IsAddress S.IsTile own a m) (h : IsImmOrReg S.IsTile own src t) (ha : TempNamed a)
    (hsrc : TempNamed src) (s : State) : S.Does (S.effect func s (.store a src))
      (m.code ++ t.code ++ [.mov (.mem m.result) t.result]) s := by
  have hnone (hnone : S.value s a = none ∨ S.value s src = none) :
      S.effect func s (.store a src) = none := by
    rcases hnone with hnone | hnone
    · simp [Setting.effect, hnone]
    · cases hv : S.value s a <;> simp [Setting.effect, hnone, hv]
  rcases (S.address_computes hm ha).append (S.immOrReg_computes h hsrc) hsrc s with
    ⟨s', hseq, hkeeps, hread⟩ | ⟨hbad, hfails⟩
  · obtain ⟨haddress, hvalue⟩ := hread own (.refl own) s' (.refl s')
    by_cases heffect : S.effect func s (.store a src) = none
    · refine .inr ⟨heffect, fun hstrict => hseq.fails_append (S.store_fails hstrict ?_)⟩
      intro address v ha' hv
      rw [haddress] at ha'
      rw [hvalue] at hv
      rw [hkeeps.memory]
      rw [Option.eq_none_iff_forall_ne_some]
      simpa [Setting.effect, ha', hv] using heffect
    · cases ha' : S.value s a with
      | none => exact absurd (hnone (.inl ha')) heffect
      | some address =>
        cases hv : S.value s src with
        | none => exact absurd (hnone (.inr hv)) heffect
        | some v =>
          cases hload : S.load? s.memory address with
          | none => exact absurd (by simp [Setting.effect, ha', hv, hload]) heffect
          | some w =>
            have hrun : Seq S.img S.ok [.mov (.mem m.result) t.result] s' _ :=
              S.store_runs (haddress.trans ha') (hvalue.trans hv)
                (by rw [hkeeps.memory, hload]; nofun)
            refine .inl ⟨⟨none, fun t => s.get (.ofName t), s.memory.write address v, none⟩,
              _, by simp [Setting.effect, ha', hv, hload], .falls (hseq.append hrun), ?_⟩
            rw [hkeeps.memory]
            exact ⟨rfl, hkeeps.heap, hkeeps.output, fun ht => hkeeps.get_user ht.tempName,
              fun hrax hrdx => hkeeps.get_machine hrax hrdx, nofun⟩
  · exact .inr ⟨hnone hbad, fun hstrict => (hfails hstrict).append_left⟩

theorem Setting.cmp_runs {y : Operand} {a b : Int64} (hx : S.operand? s x = some a)
    (hy : S.operand? s y = some b) :
    Seq S.img S.ok [.cmp x y] s { s.advance with left := a, right := b } := by
  obtain ⟨hvx, hwx⟩ := S.value_of_operand? hx
  obtain ⟨hvy, hwy⟩ := S.value_of_operand? hy
  refine .single rfl (S.allows s _ rfl rfl ?_) ?_
  · intro m hm
    rcases List.mem_append.mp hm with hm | hm
    · exact hwx m hm
    · exact hwy m hm
  · simp [Image.exec, hvx, hvy]

theorem Setting.cmp_fails {y : Operand} (hstrict : S.strict)
    (h : S.operand? s x = none ∨ S.operand? s y = none) : Fails S.img (.cmp x y :: code) s := by
  cases hexec : S.img.exec s.advance (.cmp x y) with
  | error e => exact .here hexec
  | ok s' =>
    exfalso
    simp only [Image.exec, use_eq_ok, Image.value_advance] at hexec
    obtain ⟨v, hv, w, hw, _⟩ := hexec
    rcases h with h | h
    · obtain ⟨t, ht⟩ := S.value_of_operand?_eq_none hstrict h
      rw [ht] at hv
      cases hv
    · obtain ⟨t, ht⟩ := S.value_of_operand?_eq_none hstrict h
      rw [ht] at hw
      cases hw

/-- A jump behind code that left temporaries and memory alone. -/
theorem Setting.branch_ends {c : Cond} {l : Name} {s' : State} {taken : Bool}
    (hseq : Seq S.img S.ok code s s') (hc : c.holds s'.left s'.right = .ok taken)
    (hkeeps : ∃ s₁ left right, S.Keeps own (fun _ => False) s s₁ ∧
      s' = { s₁.advance with left, right }) :
    ∃ s'', S.Ends (code ++ [.jump c l]) s (if taken then some l else none) s'' ∧
      (⟨if taken then some l else none, fun t => s.get (.ofName t), s.memory, none⟩ :
        Effect).Leaves s s'' := by
  obtain ⟨s₁, left, right, hkeeps, rfl⟩ := hkeeps
  cases taken with
  | true => exact ⟨_, .jumps hseq hc, hkeeps.leaves⟩
  | false => exact ⟨_, .passes hseq hc, hkeeps.leaves⟩

theorem Setting.compare_does {op : Op} {c : Cond} {l r : Expr} {x : Tile Reg} {y : Tile Operand}
    (func target : Name) (hop : cond? op = some c) (hx : S.IsTile own l x)
    (hy : IsImmOrReg S.IsTile own r y) (hl : TempNamed l) (hr : TempNamed r) (s : State) :
    S.Does (S.effect func s (.branch (.binary op l r) target))
      (.comment text :: x.code ++ y.code ++ [.cmp (.reg x.result) y.result, .jump c target]) s := by
  have hprep := ((hx hl).2.comment text hl).append (S.immOrReg_computes hy hr) hr s
  rcases hprep with ⟨s', hseq, hkeeps, hread⟩ | ⟨hbad, hfails⟩
  · obtain ⟨hvx, hvy⟩ := hread own (.refl own) s' (.refl s')
    cases hv : S.value s l with
    | none => exact absurd (hvx.trans hv) nofun
    | some a =>
      cases hw : S.value s r with
      | none =>
        refine .inr ⟨?_, fun hstrict => ?_⟩
        · simp [Setting.effect, S.value_binary_of_none (.inr hw)]
        · exact hseq.fails_append (S.cmp_fails hstrict (.inr (hvy.trans hw)))
      | some b =>
        obtain ⟨taken, hholds, heval⟩ := holds_of_cond? hop a b
        have hcmp := S.cmp_runs (x := .reg x.result) (hvx.trans hv) (hvy.trans hw)
        obtain ⟨s'', hends, hleaves⟩ := S.branch_ends (l := target) (hseq.append hcmp) hholds
          ⟨s', a, b, hkeeps, rfl⟩
        refine .inl ⟨_, s'', ?_, by simpa using hends, hleaves⟩
        simp only [Setting.effect, S.value_binary hv hw, heval, Except.toOption]
        cases taken <;> rfl
  · refine .inr ⟨?_, fun hstrict => (hfails hstrict).append_left⟩
    simp [Setting.effect, S.value_binary_of_none hbad]

theorem Setting.test_does {cond : Expr} {x : Tile Operand} (func target : Name)
    (hx : IsPlace S.IsTile own cond x) (hcond : TempNamed cond) (s : State) :
    S.Does (S.effect func s (.branch cond target))
      (.comment text :: x.code ++ [.cmp x.result (.imm 0), .jump .jnz target]) s := by
  rcases ((S.place_computes hx hcond).comment text hcond).cases s with
    ⟨s', hseq, hkeeps, hread⟩ | ⟨hnone, hfails⟩
  · cases hv : S.value s cond with
    | none =>
      refine .inr ⟨by simp [Setting.effect, hv], fun hstrict => ?_⟩
      exact hseq.fails_append (S.cmp_fails hstrict (.inl (hread.trans hv)))
    | some a =>
      have hcmp := S.cmp_runs (y := .imm 0) (hread.trans hv) rfl
      have hholds : Cond.jnz.holds a 0 = .ok (a != 0) := by simp [Cond.holds]
      obtain ⟨s'', hends, hleaves⟩ := S.branch_ends (l := target) (hseq.append hcmp) hholds
        ⟨s', a, 0, hkeeps, rfl⟩
      refine .inl ⟨_, s'', ?_, by simpa using hends, hleaves⟩
      simp only [Setting.effect, hv]
      by_cases ha : a = 0 <;> simp [ha]
  · refine .inr ⟨by simp [Setting.effect, hnone], fun hstrict => (hfails hstrict).append_left⟩

theorem Setting.ret_does {v : Expr} (func : Name) (h : IsOperand S.IsTile own v t)
    (hv : TempNamed v) (s : State) :
    S.Does (S.effect func s (.ret (some v))) (.comment text :: (t.code ++
      [.mov (.reg .rax) t.result]) ++ [.jump .jmp (epilogueLabel func)]) s := by
  rcases ((S.operand_computes h hv).comment text hv).cases s with
    ⟨s', hseq, hkeeps, hread⟩ | ⟨hnone, hfails⟩
  · cases hvalue : S.value s v with
    | none =>
      refine .inr ⟨by simp [Setting.effect, hvalue], fun hstrict => ?_⟩
      have hmov : Fails S.img [.mov (.reg .rax) t.result] s' :=
        S.mov_fails hstrict (hread.trans hvalue)
      exact (hseq.fails_append hmov).append_left
    | some w =>
      have hmov := hseq.append (S.mov_runs (r := .rax) (hread.trans hvalue))
      refine .inl ⟨⟨some (epilogueLabel func), fun t => s.get (.ofName t), s.memory, some w⟩, _,
        by simp [Setting.effect, hvalue], .jumps hmov rfl, ?_⟩
      refine ⟨hkeeps.memory, hkeeps.heap, hkeeps.output, ?_, ?_, ?_⟩
      · intro u hu
        rw [State.get_set_of_ne _ _ (hu.tempName.ofName_ne_machine .rax).symm, State.get_advance,
          hkeeps.get_user hu.tempName]
      · grind [State.get_set_of_ne, Reg.machine.inj, State.get_advance, hkeeps.get_machine]
      · intro u hu
        rw [State.get_set_self]
        exact Option.some.inj hu
  · refine .inr ⟨by simp [Setting.effect, hnone], fun hstrict => ?_⟩
    exact ((hfails hstrict).append_left (b := [.mov (.reg .rax) t.result])).append_left

end

/-- The names in a statement are names that they may be. -/
def StmtNamed : Stmt Expr → Prop
  | .move dest src => UserName dest ∧ WellNamed src
  | .store a src => WellNamed a ∧ WellNamed src
  | .call f args result => WellNamed f ∧ (∀ a ∈ args, WellNamed a) ∧ ∀ t ∈ result, UserName t
  | .branch cond _ => WellNamed cond
  | .ret (some v) => WellNamed v
  | .jump _ | .label _ | .ret none | .absent => True

/-- The code of a statement without a call does what the statement does. -/
theorem StmtCode.does {S : Setting} {own : Owner} {func : Name} {stmt : Stmt Expr}
    {code : List Instr} (h : StmtCode S.IsTile own func stmt code) (hnamed : StmtNamed stmt)
    (hcall : ∀ f args result, stmt ≠ .call f args result) (s : State) :
    S.Does (S.effect func s stmt) code s := by
  have hkeeps : S.Keeps own (fun _ => False) s s := .refl s
  cases h with
  | move dest h => exact S.move_does func dest h hnamed.2.tempNamed hnamed.1 s
  | store hm h => exact S.store_does func hm h hnamed.1.tempNamed hnamed.2.tempNamed s
  | call result htarget hargs => exact absurd rfl (hcall _ _ _)
  | jump l => exact .inl ⟨_, s, rfl, .jumps (.nil s) rfl, hkeeps.leaves⟩
  | label l =>
    have hlabel : Seq S.img S.ok [.label l] s s.advance := S.runs_of_words rfl rfl rfl rfl
    exact .inl ⟨_, _, rfl, .falls hlabel, hkeeps.leaves⟩
  | compare target hop hx hy =>
    exact S.compare_does func target hop hx hy hnamed.1.tempNamed hnamed.2.tempNamed s
  | test target hx => exact S.test_does func target hx (WellNamed.tempNamed hnamed) s
  | @leave text =>
    have hcomment : Seq S.img S.ok [.comment text] s s.advance :=
      S.runs_of_words rfl rfl rfl rfl
    exact .inl ⟨_, _, rfl, .jumps hcomment rfl, hkeeps.leaves⟩
  | ret h => exact S.ret_does func h (WellNamed.tempNamed hnamed) s

end X64Backend.Select
