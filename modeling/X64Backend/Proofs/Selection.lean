import X64Backend.Proofs.Meaning.Mirror

/-! # Selection keeps the meaning of bodies

The code selected for a body without calls runs through the blocks of its statements in
the order in which evaluation runs through the statements. It reaches the label that
returns jump to with the temporaries, the memory and the result of evaluation, it fails
just if evaluation does, and it runs forever just if evaluation does.
-/

namespace X64Backend.Select

open Asm Code Machine Meaning List

/-- A run of evaluation inside a body, beside a machine at the statement's block. -/
structure Beside (body : List NodeStmt) (codes : List (List Instr)) (img : Image) (ctx : Context)
    (c : Meaning.Config) (s : State) : Prop where
  mirrors : Mirrors img ctx c s
  body_eq : c.frame.func.body = body.map NodeStmt.plain
  returns : c.frame.func.returns = false
  waiting : c.waiting = []
  position : c.frame.position ≤ body.length
  ip : s.ip = offset codes c.frame.position

/-- The machine at the end of a body, beside evaluation that has finished with a result. -/
structure Finishes (codes : List (List Instr)) (temps : Temps) (v : Option Value) (w : World)
    (s : State) : Prop where
  ip : s.ip = codes.flatten.length
  temps {t : Name} (ht : UserName t) : temps t = some (.word (s.get (.ofName t)))
  memory : w.memory = s.memory
  heap : w.heap = s.heap
  output : w.output = s.output
  result (x : Value) (h : v = some x) : x = .word (s.get .rax)

theorem offset_length (codes : List (List Instr)) {p : Nat} (h : codes.length ≤ p) :
    offset codes p = codes.flatten.length := by
  rw [offset, take_of_length_le h]

section

variable {func : Name} {body : List NodeStmt} {codes : List (List Instr)} {img : Image}
variable {ctx : Context} {c : Meaning.Config} {s : State}

/-- One statement is one block: evaluation and the machine go on, finish or fail together. -/
theorem Beside.step (h : Beside body codes img ctx c s) (hplaced : Placed func body codes img)
    (hbody : Selectable func body)
    (hbound : ∀ st ∈ body, ∀ n ∈ stmtSymbols st.plain, ∃ a, img.globals[n]? = some a) :
    (∃ c' s' n, Meaning.step ctx c = .ok (.running c') ∧
      img.Within (offset codes c.frame.position) (offset codes (c.frame.position + 1)) (n + 1) s s' ∧
      Beside body codes img ctx c' s') ∨
    (∃ v w s' n, Meaning.step ctx c = .ok (.finished v w) ∧
      img.Within (offset codes c.frame.position) (offset codes (c.frame.position + 1)) n s s' ∧
      Finishes codes c.frame.temps v w s') ∨
    (∃ e, Meaning.step ctx c = .error e ∧
      img.FailsWithin (offset codes c.frame.position) (offset codes (c.frame.position + 1)) s) := by
  cases hp : body[c.frame.position]? with
  | none =>
    -- the body ends without a return
    have hlen : c.frame.position = body.length :=
      Nat.le_antisymm h.position (List.getElem?_eq_none_iff.mp hp)
    have hstep : Meaning.step ctx c = .ok (.finished none c.world) := by
      rw [Meaning.step, h.body_eq, getElem?_map, hp]
      simp [h.returns, Meaning.Config.leave, h.waiting]
    refine .inr (.inl ⟨none, c.world, s, 0, hstep, .zero s, ?_⟩)
    refine ⟨?_, h.mirrors.temps, h.mirrors.memory, h.mirrors.heap, h.mirrors.output, ?_⟩
    · rw [h.ip, offset_length codes (Nat.le_of_eq (hplaced.length_eq.trans hlen.symm))]
    · rintro _ ⟨⟩
  | some st =>
    have hmem : st ∈ body := mem_of_getElem? hp
    obtain ⟨own, code, hcode, hstmt⟩ := hplaced.block hp
    have hstep : Meaning.step ctx c = exec ctx c st.plain := by
      rw [Meaning.step, h.body_eq, getElem?_map, hp]
      rfl
    have hholds := hplaced.holds hcode
    rw [hstep, Placed.offset_succ hcode]
    rcases hstmt.does (hbody.named st hmem) (hbody.noCall st hmem) s with
      ⟨x, s', heffect, hends, hleaves⟩ | ⟨hnone, hfails⟩
    · have htargets : ∀ l ∈ stmtTargets st.plain,
          ∃ p, labelPosition? c.frame.func.body l = some p := by
        intro l hl
        rw [h.body_eq]
        exact exists_labelPosition? (mem_bodyLabels.mp (hbody.defined st hmem l hl))
      obtain ⟨p, hexec⟩ := h.mirrors.exec_of_effect (hbody.named st hmem) (hbound st hmem)
        htargets func heffect
      obtain ⟨y, hy, hcases⟩ := h.mirrors.reads.effect_of_exec (hbody.named st hmem)
        (hbody.noCall st hmem) func hexec
      rw [heffect] at hy
      cases hy
      rcases hcases with ⟨c', rfl, hcontinues, hmemory, hreads⟩ |
        ⟨v, rfl, hexit, hmemory, htemps, hreturns, hvalue⟩
      · -- the position that evaluation goes to is where the block's exit leads
        have hnext : c'.frame.position ≤ body.length ∧
            (x.exit = none → c'.frame.position = c.frame.position + 1) ∧
            ∀ l ∈ x.exit, img.labels[l]? = some (offset codes c'.frame.position) := by
          have hposition := hcontinues.position
          cases hexit : x.exit with
          | none =>
            rw [hexit] at hposition
            have hlt := (List.getElem?_eq_some_iff.mp hp).1
            refine ⟨by omega, fun _ => hposition, ?_⟩
            rintro _ ⟨⟩
          | some l =>
            rw [hexit, h.body_eq] at hposition
            refine ⟨?_, (absurd · (Option.some_ne_none l)), ?_⟩
            · have hlt := (List.getElem?_eq_some_iff.mp (body_of_labelPosition? hposition)).1
              rw [length_map] at hlt
              omega
            · intro l' hl'
              cases hl'
              exact hplaced.labels_of_labelPosition? hbody hposition
        obtain ⟨n, ip, steps, hwithin, hip⟩ := hends.within hstmt.ne_nil h.ip hholds hnext.2.2
        have hleaves' : x.Leaves s { s' with ip, steps } := ⟨hleaves.memory, hleaves.heap,
          hleaves.output, hleaves.user, hleaves.machine, hleaves.result⟩
        refine .inl ⟨c', _, n, hexec, hwithin, ?_⟩
        refine ⟨h.mirrors.of_leaves hleaves' hcontinues (hmemory h.mirrors.memory)
          (hreads _ hleaves') ?_, ?_, ?_, ?_, hnext.1, ?_⟩
        · intro t ht
          exact h.mirrors.word_of_exec h.waiting (hbody.named st hmem) (hbody.noCall st hmem)
            hexec ht
        · rw [hcontinues.func, h.body_eq]
        · rw [hcontinues.func, h.returns]
        · rw [hcontinues.waiting, h.waiting]
        · show ip = _
          by_cases hexit : x.exit = none
          · rw [hip.1 hexit, hnext.2.1 hexit, Placed.offset_succ hcode]
          · exact hip.2 hexit
      · have hlabel : ∀ l ∈ x.exit, img.labels[l]? = some codes.flatten.length := by
          intro l hl
          rw [hexit] at hl
          cases hl
          exact hplaced.labels_epilogue hbody
        obtain ⟨n, ip, steps, hwithin, hip⟩ := hends.within hstmt.ne_nil h.ip hholds hlabel
        have hfinished : c.leave v = .finished v c.world := by
          simp only [Meaning.Config.leave, h.waiting]
        refine .inr (.inl ⟨v, c.world, _, n + 1, by rw [hexec, hfinished], hwithin, ?_⟩)
        refine ⟨?_, ?_, ?_, ?_, ?_, ?_⟩
        · exact hip.2 (by simp [hexit])
        · intro t ht
          rw [h.mirrors.temps ht]
          exact congrArg (fun w => some (Value.word w))
            ((hleaves.user ht).trans (congrFun htemps t)).symm
        · rw [h.mirrors.memory]
          exact (hleaves.memory.trans hmemory).symm
        · rw [h.mirrors.heap]
          exact hleaves.heap.symm
        · rw [h.mirrors.output]
          exact hleaves.output.symm
        · rintro value rfl
          obtain ⟨e, he, heval⟩ := hvalue value rfl
          obtain ⟨u, rfl⟩ := h.mirrors.word_of_eval he heval
          generalize hresult : x.result = result at hreturns
          cases hreturns with
          | some hfits =>
            cases hfits
            exact congrArg Value.word (hleaves.result u hresult).symm
    · refine .inr (.inr ?_)
      cases hexec : exec ctx c st.plain with
      | error e =>
        exact ⟨e, rfl, (hfails trivial).within hholds h.ip (Nat.le_refl _) (Nat.le_refl _)⟩
      | ok p =>
        obtain ⟨x, hx, _⟩ := h.mirrors.reads.effect_of_exec (hbody.named st hmem)
          (hbody.noCall st hmem) func hexec
        rw [hnone] at hx
        cases hx

end

/-- Statements that evaluation executes one after another, by their positions. -/
inductive Trace (ctx : Context) : List Nat → Meaning.Config → Meaning.Config → Prop
  | nil (c : Meaning.Config) : Trace ctx [] c c
  | cons {ps : List Nat} {c c' c'' : Meaning.Config} (h : Meaning.step ctx c = .ok (.running c'))
      (rest : Trace ctx ps c' c'') : Trace ctx (c.frame.position :: ps) c c''

/-- Blocks that a machine runs through one after another, by their numbers. Each is entered
at its first instruction. -/
inductive Visits (img : Image) (codes : List (List Instr)) : List Nat → State → State → Prop
  | nil (s : State) : Visits img codes [] s s
  | cons {p n : Nat} {ps : List Nat} {s s' s'' : State} (hip : s.ip = offset codes p)
      (h : img.Within (offset codes p) (offset codes (p + 1)) (n + 1) s s')
      (rest : Visits img codes ps s' s'') : Visits img codes (p :: ps) s s''

theorem offset_le (codes : List (List Instr)) (p : Nat) : offset codes p ≤ codes.flatten.length := by
  rw [← take_append_drop p codes, flatten_append, length_append,
    take_append_drop]
  exact Nat.le_add_right _ _

theorem Visits.passes {img : Image} {codes : List (List Instr)} {ps : List Nat} {s s' : State}
    (h : Visits img codes ps s s') :
    ∃ n, ps.length ≤ n ∧ img.Passes codes.flatten.length n s s' := by
  induction h with
  | nil s => exact ⟨0, Nat.le_refl _, .refl _ s⟩
  | @cons p n ps s s' s'' _ h _ ih =>
    obtain ⟨m, hm, hpasses⟩ := ih
    refine ⟨n + 1 + m, by simp; omega, ?_⟩
    exact (h.passes (offset_le codes (p + 1))).trans hpasses

/-- With as much fuel as steps, evaluation is still running, or it has finished or failed
behind a trace. -/
theorem run_cases (ctx : Context) (fuel : Nat) (c : Meaning.Config) :
    (∃ ps c', Trace ctx ps c c' ∧ ps.length = fuel ∧ run ctx fuel c = .ok none) ∨
    (∃ ps c' v w, Trace ctx ps c c' ∧ Meaning.step ctx c' = .ok (.finished v w) ∧
      run ctx fuel c = .ok (some (v, w))) ∨
    (∃ ps c' e, Trace ctx ps c c' ∧ Meaning.step ctx c' = .error e ∧
      run ctx fuel c = .error e) := by
  induction fuel generalizing c with
  | zero => exact .inl ⟨[], c, .nil c, rfl, rfl⟩
  | succ fuel ih =>
    cases hstep : Meaning.step ctx c with
    | error e => exact .inr (.inr ⟨[], c, e, .nil c, hstep, by rw [run, hstep]; rfl⟩)
    | ok progress =>
      cases progress with
      | finished v w => exact .inr (.inl ⟨[], c, v, w, .nil c, hstep, by rw [run, hstep]; rfl⟩)
      | running c' =>
        have hrun : run ctx (fuel + 1) c = run ctx fuel c' := by
          rw [run, hstep]
          rfl
        rw [hrun]
        rcases ih c' with ⟨ps, c'', htrace, hlen, h⟩ | ⟨ps, c'', v, w, htrace, hend, h⟩ |
          ⟨ps, c'', e, htrace, hend, h⟩
        · exact .inl ⟨_, c'', .cons hstep htrace, by rw [length_cons, hlen], h⟩
        · exact .inr (.inl ⟨_, c'', v, w, .cons hstep htrace, hend, h⟩)
        · exact .inr (.inr ⟨_, c'', e, .cons hstep htrace, hend, h⟩)

section

variable {func : Name} {body : List NodeStmt} {codes : List (List Instr)} {img : Image}
variable {ctx : Context} {c c' : Meaning.Config} {s : State}
variable (hplaced : Placed func body codes img) (hbody : Selectable func body)
variable (hbound : ∀ st ∈ body, ∀ n ∈ stmtSymbols st.plain, ∃ a, img.globals[n]? = some a)

include hplaced hbody hbound

/-- The machine visits the blocks of the statements that evaluation executes. -/
theorem Beside.visits (h : Beside body codes img ctx c s) {ps : List Nat}
    (htrace : Trace ctx ps c c') :
    ∃ s', Visits img codes ps s s' ∧ Beside body codes img ctx c' s' := by
  induction htrace generalizing s with
  | nil c => exact ⟨s, .nil s, h⟩
  | @cons ps c c' c'' hstep _ ih =>
    rcases h.step hplaced hbody hbound with ⟨d, s', n, hd, hwithin, hd'⟩ |
      ⟨v, w, s', n, hd, _⟩ | ⟨e, hd, _⟩
    · rw [hstep] at hd
      cases hd
      obtain ⟨s'', hvisits, hbeside⟩ := ih hd'
      exact ⟨s'', .cons h.ip hwithin hvisits, hbeside⟩
    · rw [hstep] at hd
      cases hd
    · rw [hstep] at hd
      cases hd

theorem Beside.reaches (h : Beside body codes img ctx c s) {ps : List Nat}
    (htrace : Trace ctx ps c c') {v : Option Value} {w : World}
    (hend : Meaning.step ctx c' = .ok (.finished v w)) :
    ∃ s', img.Reaches codes.flatten.length s s' ∧ Finishes codes c'.frame.temps v w s' := by
  obtain ⟨s₁, hvisits, hbeside⟩ := h.visits hplaced hbody hbound htrace
  obtain ⟨n, _, hpasses⟩ := hvisits.passes
  rcases hbeside.step hplaced hbody hbound with ⟨d, s', m, hd, _⟩ |
    ⟨v', w', s', m, hd, hwithin, hfinishes⟩ | ⟨e, hd, _⟩
  · rw [hend] at hd
    cases hd
  · rw [hend] at hd
    cases hd
    exact ⟨s', hpasses.reaches ⟨m, hwithin.passes (offset_le _ _), hfinishes.ip⟩, hfinishes⟩
  · rw [hend] at hd
    cases hd

theorem Beside.breaks (h : Beside body codes img ctx c s) {ps : List Nat}
    (htrace : Trace ctx ps c c') {e : Fault} (hend : Meaning.step ctx c' = .error e) :
    img.Breaks codes.flatten.length s := by
  obtain ⟨s₁, hvisits, hbeside⟩ := h.visits hplaced hbody hbound htrace
  obtain ⟨n, _, hpasses⟩ := hvisits.passes
  rcases hbeside.step hplaced hbody hbound with ⟨d, s', m, hd, _⟩ | ⟨v', w', s', m, hd, _⟩ |
    ⟨e, hd, hfails⟩
  · rw [hend] at hd
    cases hd
  · rw [hend] at hd
    cases hd
  · exact hpasses.breaks (hfails.breaks (offset_le _ _))

theorem Beside.diverges (h : Beside body codes img ctx c s)
    (hrun : ∀ fuel, run ctx fuel c = .ok none) : img.Diverges codes.flatten.length s := by
  intro n
  rcases run_cases ctx (n + 1) c with ⟨ps, c', htrace, hlen, _⟩ | ⟨_, _, _, _, _, _, h'⟩ |
    ⟨_, _, _, _, _, h'⟩
  · obtain ⟨s', hvisits, _⟩ := h.visits hplaced hbody hbound htrace
    obtain ⟨m, hm, hpasses⟩ := hvisits.passes
    obtain ⟨t, ht, hip⟩ := hpasses.2 n (by omega)
    exact ⟨t, ⟨ht, fun k hk => hpasses.2 k (by omega)⟩, hip⟩
  · rw [hrun] at h'
    cases h'
  · rw [hrun] at h'
    cases h'

end

/-- Names mean the globals of a program, and all memory can be used. -/
def directContext (img : Image) : Context where
  scope := { globals := (img.globals[·]?), isFunc := fun _ => false, limit := stackTop }
  funcs := []

/-- Evaluation of a body from a state of the machine on. -/
def directStart (func : Name) (body : List NodeStmt) (s : State) : Meaning.Config where
  frame :=
    { func := { name := func, args := [], returns := false, body := body.map NodeStmt.plain }
      position := 0
      temps := fun t => some (.word (s.get (.ofName t))) }
  waiting := []
  world := { memory := s.memory, heap := s.heap, output := s.output }

/-- A machine does what evaluation does: it runs through the blocks of the statements that
evaluation executes, with the same temporaries and memory at each of them, and it comes to
the end, fails or runs forever just if evaluation does. -/
structure SameRun (img : Image) (codes : List (List Instr)) (ctx : Context) (c : Meaning.Config)
    (s : State) : Prop where
  follows {ps : List Nat} {c' : Meaning.Config} (h : Trace ctx ps c c') :
    ∃ s', Visits img codes ps s s' ∧ s'.ip = offset codes c'.frame.position ∧
      (∀ t, UserName t → c'.frame.temps t = some (.word (s'.get (.ofName t)))) ∧
      c'.world.memory = s'.memory
  finishes {ps : List Nat} {c' : Meaning.Config} {v : Option Value} {w : World}
    (h : Trace ctx ps c c') (hend : Meaning.step ctx c' = .ok (.finished v w)) :
    ∃ s', img.Reaches codes.flatten.length s s' ∧ Finishes codes c'.frame.temps v w s'
  ends : (∃ fuel r, run ctx fuel c = .ok (some r)) ↔ ∃ s', img.Reaches codes.flatten.length s s'
  fails : (∃ fuel e, run ctx fuel c = .error e) ↔ img.Breaks codes.flatten.length s
  diverges : (∀ fuel, run ctx fuel c = .ok none) ↔ img.Diverges codes.flatten.length s

/-- Of three cases each implies its own end. If no two ends go together, an end implies its case. -/
theorem iff_of_trichotomy {a b c a' b' c' : Prop} (ha : a → a') (hb : b → b') (hc : c → c')
    (hcases : a ∨ b ∨ c) (hab : a' → ¬ b') (hac : a' → ¬ c') (hbc : b' → ¬ c') :
    (a ↔ a') ∧ (b ↔ b') ∧ (c ↔ c') := by
  tauto

theorem Beside.sameRun {func : Name} {body : List NodeStmt} {codes : List (List Instr)}
    {img : Image} {ctx : Context} {c : Meaning.Config} {s : State}
    (h : Beside body codes img ctx c s) (hplaced : Placed func body codes img)
    (hbody : Selectable func body)
    (hbound : ∀ st ∈ body, ∀ n ∈ stmtSymbols st.plain, ∃ a, img.globals[n]? = some a) :
    SameRun img codes ctx c s := by
  have hends : (∃ fuel r, run ctx fuel c = .ok (some r)) →
      ∃ s', img.Reaches codes.flatten.length s s' := by
    rintro ⟨fuel, r, hrun⟩
    rcases run_cases ctx fuel c with ⟨_, _, _, _, h'⟩ | ⟨ps, c', v, w, htrace, hend, _⟩ |
      ⟨_, _, _, _, _, h'⟩
    · rw [hrun] at h'
      cases h'
    · obtain ⟨s', hreaches, _⟩ := h.reaches hplaced hbody hbound htrace hend
      exact ⟨s', hreaches⟩
    · rw [hrun] at h'
      cases h'
  have hfails : (∃ fuel e, run ctx fuel c = .error e) → img.Breaks codes.flatten.length s := by
    rintro ⟨fuel, e, hrun⟩
    rcases run_cases ctx fuel c with ⟨_, _, _, _, h'⟩ | ⟨_, _, _, _, _, _, h'⟩ |
      ⟨ps, c', e', htrace, hend, _⟩
    · rw [hrun] at h'
      cases h'
    · rw [hrun] at h'
      cases h'
    · exact h.breaks hplaced hbody hbound htrace hend
  -- evaluation has one of three endings, and the machine's three exclude each other
  have hcases : (∃ fuel r, run ctx fuel c = .ok (some r)) ∨ (∃ fuel e, run ctx fuel c = .error e) ∨
      ∀ fuel, run ctx fuel c = .ok none := by
    by_cases hend : ∃ fuel r, run ctx fuel c = .ok (some r)
    · exact .inl hend
    · by_cases hfail : ∃ fuel e, run ctx fuel c = .error e
      · exact .inr (.inl hfail)
      · refine .inr (.inr fun fuel => ?_)
        cases hrun : run ctx fuel c with
        | error e => exact absurd ⟨fuel, e, hrun⟩ hfail
        | ok r =>
          cases r with
          | none => rfl
          | some r => exact absurd ⟨fuel, r, hrun⟩ hend
  obtain ⟨hends, hfails, hdiverges⟩ := iff_of_trichotomy hends hfails
    (h.diverges hplaced hbody hbound) hcases (fun hs' => hs'.elim fun _ => Image.Reaches.not_breaks)
    (fun hs' hforever => hs'.elim hforever.not_reaches)
    fun hbreaks hforever => hforever.not_breaks hbreaks
  refine ⟨fun htrace => ?_, fun htrace hend => h.reaches hplaced hbody hbound htrace hend, hends,
    hfails, hdiverges⟩
  obtain ⟨s', hvisits, hbeside⟩ := h.visits hplaced hbody hbound htrace
  exact ⟨s', hvisits, hbeside.ip, fun t ht => hbeside.mirrors.temps ht, hbeside.mirrors.memory⟩

/-- Code that is selected for a body without calls runs as evaluation does, from every state
and under every table of globals that has the body's symbols. -/
theorem coverBody_sameRun {func : Name} {body : List NodeStmt} (h : Selectable func body) :
    ∃ codes memo, (body.mapM (coverStmt func)).run.run .empty = (.ok codes, memo) ∧
      (coverBody func body).run.run .empty =
        (.ok (codes.flatten ++ [.label (epilogueLabel func)]), memo) ∧
      codes.length = body.length ∧
      ∀ img s, Loads img (codes.flatten ++ [.label (epilogueLabel func)]) →
        (∀ st ∈ body, ∀ n ∈ stmtSymbols st.plain, ∃ a, img.globals[n]? = some a) → s.ip = 0 →
        SameRun img codes (directContext img) (directStart func body s) s := by
  obtain ⟨codes, memo, hrun, hcodes⟩ := exists_codes h.numbered h.valid
  have hlength : codes.length = body.length := by
    obtain ⟨own, hall⟩ := hcodes Straight straight_rules
    exact hall.length_eq.symm
  refine ⟨codes, memo, hrun, run_coverBody hrun, hlength, ?_⟩
  intro img s hloads hbound hip
  have hplaced : Placed func body codes img :=
    ⟨hloads, hcodes _ (plainSetting img).rules, hcodes _ straight_rules⟩
  have hstart : Beside body codes img (directContext img) (directStart func body s) s :=
    ⟨⟨rfl, fun _ => rfl, fun _ => rfl, fun _ => rfl, rfl, rfl, rfl⟩, rfl, rfl, rfl,
      Nat.zero_le _, hip⟩
  exact hstart.sameRun hplaced h hbound

/-- Adds one to a temporary as long as one more is below ten. The sum is shared. -/
def counting : List NodeStmt :=
  let sum : Node := .binary 2 .add (.temp 0 "x") (.const 1 1)
  [⟨3, .label "L"⟩, ⟨4, .move "x" sum⟩, ⟨7, .branch (.binary 6 .lt sum (.const 5 10)) "L"⟩,
    ⟨8, .ret (some (.temp 0 "x"))⟩]

theorem selectable_counting : Selectable "f" counting := by
  let sum : Expr := .binary .add (.temp "x") (.const 1)
  have hx : UserName "x" := ⟨by decide, by decide, by decide, by decide⟩
  constructor
  · refine exists_numbering [.temp "x", .const 1, sum, .absent, .absent, .const 10,
      .binary .lt sum (.const 10)] ?_
    simp [counting, NodeStmt.Follows, nodes, Node.Follows, NodeStmt.plain, Stmt.map, Node.expr, sum]
  · simp [counting, NodeStmt.plain, Stmt.map, Node.expr, Stmt.Valid, Expr.Valid]
  · simp [counting, NodeStmt.plain, Stmt.map, Node.expr, StmtNamed, WellNamed, hx]
  · simp [counting, NodeStmt.plain, Stmt.map]
  · decide
  · decide
  · decide

/-- A loop over shared nodes runs as evaluation does. -/
theorem counting_sameRun : ∃ codes, codes.length = 4 ∧
    ∀ img s, Loads img (codes.flatten ++ [.label (epilogueLabel "f")]) → s.ip = 0 →
      SameRun img codes (directContext img) (directStart "f" counting s) s := by
  obtain ⟨codes, memo, _, _, hlength, h⟩ := coverBody_sameRun selectable_counting
  refine ⟨codes, hlength, fun img s hloads hip => h img s hloads ?_ hip⟩
  simp [counting, NodeStmt.plain, Stmt.map, Node.expr, stmtSymbols, symbols]

/-- Returns the address of the global that has no name. -/
def nameless : List NodeStmt := [⟨1, .ret (some (.name 0 []))⟩]

/-- The symbol without a name counts as zero in code, so its address is lost there: evaluation
returns it, and the machine comes to the end of the body with zero. -/
theorem nameless_returns_zero :
    let code := (((coverBody "f" nameless).run.run .empty).1.toOption).getD []
    let (img, s) := load { globals := [⟨[], "a"⟩], funcs := [], code }
    img.globals[([] : Name)]? = some dataStart ∧
      (run (directContext img) 1 (directStart "f" nameless s)).toOption.map
        (fun r => r.map Prod.fst) = some (some (some (.word dataStart))) ∧
      (img.steps 4 s).toOption.map (fun t => (t.ip, t.get .rax)) = some (4, 0) ∧
      code[4]? = some (.label (epilogueLabel "f")) := by
  decide +kernel

end X64Backend.Select
