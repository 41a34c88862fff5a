import X64Backend.Proofs.Select.Value

/-! # Tiles compute their expressions

Code prepares something if it leaves the state as it was for expressions and what it
prepared can be read later, as long as only registers of larger expressions change. A
tile prepares the value of its expression. Each of the shapes of tiles keeps this.
-/

namespace X64Backend.Select

open Asm Code Machine

variable {S : Setting} {own : Owner} {code : List Instr}

/-- Code that runs and lets something good be read from then on, or whose run is bad. -/
def Setting.Prepares (S : Setting) (own : Owner) (free : Expr → Prop) (code : List Instr)
    (good : State → State → Prop) (bad : State → Prop) : Prop :=
  ∀ s, (∃ s', Seq S.img S.ok code s s' ∧ S.Keeps own (fun _ => False) s s' ∧
      ∀ own', own.Within own' → ∀ s'', S.Keeps own' free s' s'' → good s s'') ∨
    (bad s ∧ (S.strict → Fails S.img code s))

/-- Code after which the value of an expression can be read. -/
def Setting.Computes (S : Setting) (own : Owner) (e : Expr) (code : List Instr)
    (read : State → Option Int64) : Prop :=
  S.Prepares own (fun f => sizeOf e < sizeOf f) code (fun s s' => read s' = S.value s e)
    (fun s => S.value s e = none)

namespace Setting.Prepares

variable {S : Setting} {own : Owner} {free free' : Expr → Prop} {code a b : List Instr}
variable {good good' : State → State → Prop} {bad bad' : State → Prop}

theorem mono {own' : Owner} (hown : own.Within own')
    (h : S.Prepares own free code good bad) : S.Prepares own' free code good bad := by
  intro s
  rcases h s with ⟨s', hseq, hkeeps, hgood⟩ | hbad
  · exact .inl ⟨s', hseq, hkeeps.own_mono hown, fun own'' hown' => hgood own'' (hown.trans hown')⟩
  · exact .inr hbad

theorem imp (hfree : ∀ e, free' e → free e) (hgood : ∀ s s', good s s' → good' s s')
    (hbad : ∀ s, bad s → bad' s) (h : S.Prepares own free code good bad) :
    S.Prepares own free' code good' bad' := by
  intro s
  rcases h s with ⟨s', hseq, hkeeps, hread⟩ | ⟨hb, hfails⟩
  · refine .inl ⟨s', hseq, hkeeps, ?_⟩
    intro own' hown s'' hkeeps'
    exact hgood _ _ (hread own' hown s'' (hkeeps'.mono hfree))
  · exact .inr ⟨hbad s hb, hfails⟩

/-- Nothing has to be run for what can be read anyway. -/
theorem nil (h : ∀ s own', own.Within own' → ∀ s', S.Keeps own' free s s' → good s s') :
    S.Prepares own free [] good bad :=
  fun s => .inl ⟨s, .nil s, .refl s, h s⟩

/-- Code that prepares one thing and then another prepares both. -/
theorem append (ha : S.Prepares own free a good bad) (hb : S.Prepares own free b good' bad')
    (hgood : ∀ s s', S.Keeps own (fun _ => False) s s' → ∀ s'', good' s' s'' → good' s s'')
    (hbad : ∀ s s', S.Keeps own (fun _ => False) s s' → bad' s' → bad' s) :
    S.Prepares own free (a ++ b) (fun s s' => good s s' ∧ good' s s')
      (fun s => bad s ∨ bad' s) := by
  intro s
  rcases ha s with ⟨s₁, hseq, hkeeps, hread⟩ | ⟨hb₁, hfails⟩
  · rcases hb s₁ with ⟨s₂, hseq', hkeeps', hread'⟩ | ⟨hb₂, hfails⟩
    · refine .inl ⟨s₂, hseq.append hseq', hkeeps.trans hkeeps', ?_⟩
      intro own' hown s'' hlater
      constructor
      · exact hread own' hown s'' (((hkeeps'.own_mono hown).mono nofun).trans hlater)
      · exact hgood s s₁ hkeeps s'' (hread' own' hown s'' hlater)
    · exact .inr ⟨.inr (hbad s s₁ hkeeps hb₂), fun hstrict => hseq.fails_append (hfails hstrict)⟩
  · exact .inr ⟨.inl hb₁, fun hstrict => (hfails hstrict).append_left⟩

end Setting.Prepares

/-- Two values one after another. -/
theorem Setting.Computes.append {l r : Expr} {a b : List Instr} {read read' : State → Option Int64}
    (hl : S.Computes own l a read) (hr : S.Computes own r b read') (hwr : TempNamed r) :
    S.Prepares own (fun f => sizeOf l < sizeOf f ∧ sizeOf r < sizeOf f) (a ++ b)
      (fun s s' => read s' = S.value s l ∧ read' s' = S.value s r)
      (fun s => S.value s l = none ∨ S.value s r = none) := by
  apply Setting.Prepares.append
  · exact hl.imp (fun _ h => h.1) (fun _ _ h => h) fun _ h => h
  · exact hr.imp (fun _ h => h.2) (fun _ _ h => h) fun _ h => h
  · intro s s' hkeeps s'' hread
    rw [hread, hkeeps.value_eq hwr]
  · intro s s' hkeeps hnone
    rwa [hkeeps.value_eq hwr] at hnone

/-- Only one issued register and the registers that code works in were written. -/
structure Writes (k : Nat) (s s' : State) : Prop where
  memory : s'.memory = s.memory
  heap : s'.heap = s.heap
  output : s'.output = s.output
  regs (r : Reg) (hr : r ≠ .issued k) (hrax : r ≠ .rax) (hrdx : r ≠ .rdx) :
    s'.get r = s.get r

namespace Writes

variable {k : Nat} {s s' s'' : State}

theorem refl (s : State) : Writes k s s := ⟨rfl, rfl, rfl, fun _ _ _ _ => rfl⟩

theorem advance (s : State) : Writes k s s.advance := ⟨rfl, rfl, rfl, fun _ _ _ _ => rfl⟩

theorem trans (h : Writes k s s') (h' : Writes k s' s'') : Writes k s s'' :=
  ⟨h'.memory.trans h.memory, h'.heap.trans h.heap, h'.output.trans h.output,
    fun r hr hrax hrdx => (h'.regs r hr hrax hrdx).trans (h.regs r hr hrax hrdx)⟩

theorem set {r : Reg} (s : State) (v : Int64) (hr : r = .issued k ∨ r = .rax ∨ r = .rdx) :
    Writes k s (s.set r v) := by
  refine ⟨rfl, rfl, rfl, ?_⟩
  intro q hq hrax hrdx
  apply State.get_set_of_ne
  rintro rfl
  rcases hr with hr | hr | hr
  · exact hq hr
  · exact hrax hr
  · exact hrdx hr

theorem keeps {S : Setting} {own : Owner} {free : Expr → Prop} {e : Expr} (h : Writes k s s')
    (hk : own k = some e) (hfree : free e) : S.Keeps own free s s' := by
  refine ⟨h.memory, h.heap, h.output, ?_⟩
  intro r
  by_cases hr : r = .issued k
  · exact .inr (.inr (.inr ⟨k, e, hr, hk, .inl hfree⟩))
  · grind [h.regs]

end Writes

/-- Instructions on registers alone run in every state. -/
theorem Setting.runs_of_words {s s' : State} {x : Instr} (hx : falls x = true)
    (hstack : usesStack x = false) (hwords : x.words = []) (h : S.img.exec s.advance x = .ok s') :
    Seq S.img S.ok [x] s s' := by
  refine .single hx (S.allows s x hx hstack ?_) h
  simp [hwords]

/-- Comments leave everything as it is. -/
theorem Setting.comments_run (hcode : ∀ x ∈ code, ∃ text, x = .comment text) (s : State) :
    ∃ s', Seq S.img S.ok code s s' ∧ S.Keeps own (fun _ => False) s s' := by
  induction code generalizing s with
  | nil => exact ⟨s, .nil s, .refl s⟩
  | cons x code ih =>
    obtain ⟨text, rfl⟩ := hcode x List.mem_cons_self
    obtain ⟨s', hseq, hkeeps⟩ := ih (fun y hy => hcode y (List.mem_cons_of_mem _ hy)) s.advance
    have hcomment : Seq S.img S.ok [.comment text] s s.advance :=
      S.runs_of_words rfl rfl rfl rfl
    exact ⟨s', hcomment.append hseq, (Keeps.advance s).trans hkeeps⟩

/-- Code that works a value into an issued register, or fails if there is none. -/
def Setting.Yields (S : Setting) (k : Nat) (goal : Option Int64) (code : List Instr) (s : State) :
    Prop :=
  (∃ s', goal = some (s'.get (.issued k)) ∧ Seq S.img S.ok code s s' ∧ Writes k s s') ∨
    (goal = none ∧ (S.strict → Fails S.img code s))

namespace Setting.Yields

variable {S : Setting} {k : Nat} {goal : Option Int64} {x : Instr} {code : List Instr}
variable {s s' : State}

theorem step (hseq : Seq S.img S.ok [x] s s') (hw : Writes k s s')
    (h : S.Yields k goal code s') : S.Yields k goal (x :: code) s := by
  rcases h with ⟨s'', hgoal, hrest, hw'⟩ | ⟨hnone, hfails⟩
  · exact .inl ⟨s'', hgoal, hseq.append hrest, hw.trans hw'⟩
  · exact .inr ⟨hnone, fun hstrict => hseq.fails_append (hfails hstrict)⟩

theorem last (hseq : Seq S.img S.ok [x] s s') (hw : Writes k s s')
    (hgoal : goal = some (s'.get (.issued k))) : S.Yields k goal [x] s :=
  .inl ⟨s', hgoal, hseq, hw⟩

end Setting.Yields

/-- Code that prepares operands and then works them into a register issued for an
expression computes the expression. -/
theorem Setting.Prepares.tile {free : Expr → Prop} {tail : List Instr} {good : State → State → Prop}
    {bad : State → Prop} {e : Expr} {k : Nat} (h : S.Prepares own free code good bad)
    (hk : own k = some e) (he : TempNamed e) (hbad : ∀ s, bad s → S.value s e = none)
    (htail : ∀ s s', (∀ s'', S.Keeps own free s' s'' → good s s'') →
      S.Yields k (S.value s e) tail s') :
    S.Computes own e (code ++ tail) fun s => some (s.get (.issued k)) := by
  intro s
  rcases h s with ⟨s₁, hseq, hkeeps, hread⟩ | ⟨hb, hfails⟩
  · rcases htail s s₁ (hread own (.refl own)) with ⟨s₂, hv, hseq', hw⟩ | ⟨hnone, hfails⟩
    · have hkeeps₂ : S.Keeps own (fun _ => False) s s₂ := by
        refine ⟨hw.memory.trans hkeeps.memory, hw.heap.trans hkeeps.heap,
          hw.output.trans hkeeps.output, ?_⟩
        intro r
        by_cases hr : r = .issued k
        · subst hr
          exact .inr (.inr (.inr ⟨k, e, rfl, hk, .inr ⟨he, hv⟩⟩))
        · grind [hw.regs, hkeeps.regs]
      refine .inl ⟨s₂, hseq.append hseq', hkeeps₂, ?_⟩
      intro own' hown s'' hlater
      have hv₂ : S.value s₂ e = some (s₂.get (.issued k)) := by
        rw [hkeeps₂.value_eq he, hv]
      show some (s''.get (.issued k)) = S.value s e
      rw [hlater.get_issued (hown k e hk) (Nat.lt_irrefl _) hv₂, hv]
    · exact .inr ⟨hnone, fun hstrict => hseq.fails_append (hfails hstrict)⟩
  · exact .inr ⟨hbad s hb, fun hstrict => (hfails hstrict).append_left⟩

theorem Setting.Computes.comment {e : Expr} {read : State → Option Int64} (text : Bytes)
    (h : S.Computes own e code read) (he : TempNamed e) :
    S.Computes own e (.comment text :: code) read := by
  intro s
  have hcomment : Seq S.img S.ok [.comment text] s s.advance :=
    S.runs_of_words rfl rfl rfl rfl
  have hadvance : S.Keeps own (fun _ => False) s s.advance := .advance s
  have hvalue : S.value s.advance e = S.value s e := hadvance.value_eq he
  beta_reduce
  rw [← hvalue]
  rcases h s.advance with ⟨s', hseq, hkeeps, hread⟩ | ⟨hnone, hfails⟩
  · exact .inl ⟨s', hcomment.append hseq, hadvance.trans hkeeps, hread⟩
  · exact .inr ⟨hnone, fun hstrict => hcomment.fails_append (hfails hstrict)⟩

section

variable {S : Setting} {s : State} {a : Operand} {v : Int64} {r : Reg}
variable {code : List Instr}

/-- Instructions that read one operand run if it has a value. -/
theorem Setting.operand_runs {s' : State} {x : Instr} (h : S.operand? s a = some v)
    (hx : falls x = true) (hstack : usesStack x = false) (hwords : x.words = a.words)
    (hexec : S.img.value s.advance a = .ok v → S.img.exec s.advance x = .ok s') :
    Seq S.img S.ok [x] s s' := by
  obtain ⟨hvalue, hopen⟩ := S.value_of_operand? h
  refine .single hx (S.allows s x hx hstack ?_) (hexec (by simpa using hvalue))
  rwa [hwords]

theorem Setting.mov_runs (h : S.operand? s a = some v) :
    Seq S.img S.ok [.mov (.reg r) a] s (s.advance.set r v) := by
  refine S.operand_runs h rfl rfl rfl fun hvalue => ?_
  rw [Image.exec, hvalue]
  rfl

theorem Setting.mov_fails (hstrict : S.strict) (h : S.operand? s a = none) :
    Fails S.img (.mov (.reg r) a :: code) s := by
  obtain ⟨t, ht⟩ := S.value_of_operand?_eq_none hstrict h
  exact .here (e := (t, s.advance)) (by simp [Image.exec, Outcome.use, ht])

theorem Setting.arith_runs {op : Arith} {w : Int64} (h : S.operand? s a = some v)
    (hop : op.result? (s.get r) v = some w) :
    Seq S.img S.ok [.arith op (.reg r) a] s (s.advance.set r w) :=
  S.operand_runs h rfl rfl rfl fun hvalue => update_eq_ok.mpr ⟨_, _, _, rfl, hvalue, hop, rfl⟩

theorem Setting.arith_fails {op : Arith} (hstrict : S.strict) (h : S.operand? s a = none) :
    Fails S.img (.arith op (.reg r) a :: code) s := by
  obtain ⟨t, ht⟩ := S.value_of_operand?_eq_none hstrict h
  exact .here (update_reg_error (by simpa using ht))

theorem Setting.imul_runs (h : S.operand? s a = some v) :
    Seq S.img S.ok [.imul r a] s (s.advance.set r (s.get r * v)) := by
  refine S.operand_runs h rfl rfl rfl fun hvalue => ?_
  rw [Image.exec]
  exact update_eq_ok.mpr ⟨_, _, _, rfl, hvalue, rfl, rfl⟩

theorem Setting.imul_fails (hstrict : S.strict) (h : S.operand? s a = none) :
    Fails S.img (.imul r a :: code) s := by
  obtain ⟨t, ht⟩ := S.value_of_operand?_eq_none hstrict h
  refine .here (e := (t, s.advance)) ?_
  rw [Image.exec]
  exact update_reg_error (by simpa using ht)

theorem Setting.imul3_runs (c : Int64) (h : S.operand? s a = some v) :
    Seq S.img S.ok [.imul3 r a c] s (s.advance.set r (v * c)) := by
  refine S.operand_runs h rfl rfl rfl fun hvalue => ?_
  rw [Image.exec, hvalue]
  rfl

theorem Setting.imul3_fails (c : Int64) (hstrict : S.strict) (h : S.operand? s a = none) :
    Fails S.img (.imul3 r a c :: code) s := by
  obtain ⟨t, ht⟩ := S.value_of_operand?_eq_none hstrict h
  exact .here (e := (t, s.advance)) (by simp [Image.exec, Outcome.use, ht])

theorem Setting.idiv_runs (h : S.operand? s a = some v) (hv : v ≠ 0) :
    Seq S.img S.ok [.idiv a] s
      ((s.advance.set .rax (s.get .rax / v)).set .rdx (s.get .rax % v)) :=
  S.operand_runs h rfl rfl rfl fun hvalue => by simp [Image.exec, hvalue, hv]

theorem Setting.idiv_fails (hstrict : S.strict)
    (h : S.operand? s a = none ∨ S.operand? s a = some 0) : Fails S.img (.idiv a :: code) s := by
  rcases h with h | h
  · obtain ⟨t, ht⟩ := S.value_of_operand?_eq_none hstrict h
    exact .here (e := (t, s.advance)) (by simp [Image.exec, Outcome.use, ht])
  · obtain ⟨hvalue, _⟩ := S.value_of_operand? h
    exact .here (e := (.divisionByZero, s.advance)) (by simp [Image.exec, Outcome.use, hvalue])

theorem Setting.lea_runs {m : Mem} (h : S.img.address s m = .ok v) :
    Seq S.img S.ok [.lea r m] s (s.advance.set r v) := by
  refine S.runs_of_words rfl rfl rfl ?_
  simp [Image.exec, h]

theorem Setting.lea_fails {m : Mem} (h : (S.img.address s m).toOption = none) :
    Fails S.img (.lea r m :: code) s := by
  obtain ⟨t, ht⟩ := toOption_eq_none.mp h
  exact .here (e := (t, s.advance)) (by simp [Image.exec, Outcome.use, ht])

end

end X64Backend.Select
