import X64Backend.Proofs.Code.Legibility
import X64Backend.Proofs.Dataflow.Jobs
import X64Backend.Proofs.Generated

/-! # When a text has a program

A text that is read gives a program, a fault with a wording, or a defect. Selection takes
every body that can be read, registers are allocated for all code that it makes, and only
labels are left to fail on: a function that goes to a label which it does not have is a
defect, and nothing else is, unless rows of labels go in a circle or allocation does not end.
-/

namespace X64Backend

open Asm Code Select List

/-! ## What is read is valid -/

theorem Code.Expr.Legible.valid {e : Expr} (h : e.Legible) : e.Valid := by
  induction e with
  | const v | name n | temp t => trivial
  | mem a ih => exact ih h
  | binary op l r ihl ihr =>
    refine ⟨?_, ihl h.2.1, ihr h.2.2⟩
    rintro symbol rfl
    cases h.1
  | absent => exact h

theorem Code.Stmt.Legible.valid {returns : Bool} {s : Stmt Expr} (h : s.Legible returns) :
    s.Valid := by
  cases s with
  | move dest src => exact h.2.valid
  | store a src => exact ⟨h.1.valid, h.2.valid⟩
  | call f args result => exact ⟨h.1.valid, fun a ha => (h.2.1 a ha).valid⟩
  | branch cond target => exact h.1.valid
  | ret value =>
    cases value with
    | none => trivial
    | some v => exact (h.2 v rfl).valid
  | jump target | label l => trivial
  | absent => exact h

/-! ## Allocation -/

namespace Alloc

open Dataflow

theorem Spills.skeleton_eq {slots slots' : Slots} {supply' : Supply} {code' : List Instr}
    (h : Spills returns slots supply code slots' supply' code') :
    skeleton code' = skeleton code := by
  induction h with
  | none => rfl
  | round _ _ hcode _ ih =>
    rw [ih]
    exact Spilling.skeleton_code hcode

/-- A round fails on code that misses a label only. -/
theorem Round.ofCode_eq_error (hpresent : .absent ∉ code)
    (h : Round.ofCode returns code = .error d) : ∃ l, Tidy.Dangles code l := by
  rcases bind_eq_error.mp h with h | ⟨_, _, h⟩
  · rcases bind_eq_error.mp h with h | ⟨_, _, h⟩
    · obtain ⟨accesses, haccesses⟩ := exists_allAccesses hpresent
      rw [haccesses] at h
      cases h
    · rcases bind_eq_error.mp h with h | ⟨_, _, h⟩
      · obtain ⟨l, htarget, hlabel, _⟩ := successors_eq_error h
        exact ⟨l, htarget, hlabel⟩
      · cases h
  · cases h

variable {B : Shape} {supply : Supply} {code : List Instr} {returns : Bool} {d : Defect}

theorem dangles_iff_of_skeleton {code' : List Instr} (h : skeleton code' = skeleton code)
    (l : Name) : Tidy.Dangles code' l ↔ Tidy.Dangles code l := by
  rw [Tidy.Dangles, Tidy.Dangles, labels_eq_of_skeleton h, targets_eq_of_skeleton h]

theorem absent_not_mem {S : Shape} (h : S.Code code) : .absent ∉ code := by
  intro hmem
  cases h _ hmem

/-- Allocation in rounds fails only if it does not settle or runs out of numbers for slots. -/
theorem rounds_eq_error {fuel done : Nat} {slots : Slots}
    (h : Between B slots supply.issued code) (hB : ∀ v, B.frame v → ¬ v < 0)
    (hdefined : ∀ l, ¬ Tidy.Dangles code l)
    (hfail : rounds returns fuel done slots supply code = .error d) :
    d = .unsettled ∨ ∃ slots' supply' code',
      Spills returns slots supply code slots' supply' code' ∧ 2 ^ 60 ≤ slots'.size := by
  rcases rounds_cases fuel done h with hend | ⟨slots', supply', code', hspills, hbetween, hend⟩
  · rw [hfail] at hend
    exact .inl (Except.error.inj hend)
  · rcases hend with ⟨d', hround, _⟩ | ⟨round, n, hround, hspilled, heq⟩
    · obtain ⟨l, hl⟩ := Round.ofCode_eq_error (absent_not_mem hbetween.shape) hround
      exact absurd ((dangles_iff_of_skeleton hspills.skeleton_eq l).mp hl) (hdefined l)
    · refine .inr ⟨slots', supply', code', hspills, ?_⟩
      by_contra hsmall
      obtain ⟨result, hresult, _⟩ :=
        hbetween.lastRound_spec hround hspilled hB (Nat.lt_of_not_le hsmall) n
      rw [heq, hresult] at hfail
      cases hfail

end Alloc

namespace Generate

open Alloc

/-- Names of temporaries that a function may have. -/
def Named (f : SourceFunc) : Prop := ∀ t ∈ f.temps, checkTemp f.name t = .ok ()

/-- The labels that a function goes to and does not have. -/
def missed (f : SourceFunc) : List Name :=
  (f.body.flatMap stmtTargets).filter fun l => l ≠ epilogueLabel f.name ∧ .label l ∉ f.body

/-- Defects that stand for work without an end. -/
def Endless (d : Defect) : Prop := (∃ l, d = .circularLabels l) ∨ d = .unsettled

/-- Allocation for a function comes to more slots than words can number. -/
def Exhausts (removeComments : Bool) (fn : Func NodeStmt) : Prop :=
  ∃ code supply slots supply' code', selected removeComments fn = .ok (code, supply) ∧
    Spills fn.returns ∅ supply (keepCalleeSaved code) slots supply' code' ∧ 2 ^ 60 ≤ slots.size

section

variable {bare : Bool} {allocator : Allocator} {f : SourceFunc}

theorem body_numberFunc (f : SourceFunc) : (numberFunc f).body.map NodeStmt.plain = f.body :=
  NodeStmt.map_plain_numberAll 0 f.body

theorem mem_missed {l : Name} : l ∈ missed f ↔ (∃ s ∈ f.body, l ∈ stmtTargets s) ∧
    l ≠ epilogueLabel f.name ∧ .label l ∉ f.body := by
  rw [missed, mem_filter, mem_flatMap, decide_eq_true_eq]

/-- The code of a function before it is tidied misses the labels that the function does. -/
theorem exists_covered (hlegible : f.Legible) :
    ∃ body memo, (coverBody f.name (numberFunc f).body).run.run .empty = (.ok body, memo) ∧
      ∀ l, Tidy.Dangles (argumentMoves f.args ++ body) l ↔ l ∈ missed f := by
  have hplain := body_numberFunc f
  have hvalid : ∀ s ∈ (numberFunc f).body, s.plain.Valid := by
    intro s hs
    have hmem := mem_map_of_mem (f := NodeStmt.plain) hs
    rw [hplain] at hmem
    exact (hlegible.body s.plain hmem).valid
  obtain ⟨codes, memo, hrun, hcodes⟩ := exists_codes (exists_unique_numberAll f.body) hvalid
  obtain ⟨own, hall⟩ := hcodes Straight straight_rules
  change List.Forall₂ _ (numberFunc f).body codes at hall
  refine ⟨_, memo, run_coverBody hrun, fun l => ?_⟩
  have hmoves := skeleton_argumentMoves f.args
  have htargets : targets (argumentMoves f.args) = [] := by rw [← targets_skeleton, hmoves]; rfl
  have hlabels : labels (argumentMoves f.args) = [] := by rw [← labels_skeleton, hmoves]; rfl
  have hbody : (∃ s ∈ (numberFunc f).body, l ∈ stmtTargets s.plain) ↔
      ∃ s ∈ f.body, l ∈ stmtTargets s := by
    rw [← hplain]
    simp
  rw [Tidy.Dangles, targets_append, labels_append, htargets, hlabels, nil_append,
    nil_append, targets_append, labels_append, labels_flatten hall, mem_missed, ← hbody]
  have hend : targets [.label (epilogueLabel f.name)] = [] := rfl
  have hself : labels [.label (epilogueLabel f.name)] = [epilogueLabel f.name] := rfl
  rw [hend, hself, append_nil, mem_targets_flatten hall, mem_append, mem_bodyLabels,
    hplain, mem_singleton, not_or]
  constructor
  · grind
  · rintro ⟨htarget, hne, hlabel⟩
    exact ⟨.inl htarget, hlabel, hne⟩

theorem selected_eq {body : List Instr} {memo : Memo}
    (h : (coverBody f.name (numberFunc f).body).run.run .empty = (.ok body, memo)) :
    selected bare (numberFunc f) = do
      let code ← Tidy.tidy bare (argumentMoves f.args ++ body)
      return (code, memo.supply) := by
  unfold selected
  rw [show (coverBody (numberFunc f).name (numberFunc f).body).run Memo.empty =
    (.ok body, memo) from h]
  rfl

/-- There is no code for a function only if it misses a label, or work on it has no end. -/
theorem functionCode_eq_error {d : Defect} (hlegible : f.Legible) (hnamed : Named f)
    (hargs : f.args.length < 2 ^ 59) (hroom : ¬ Exhausts bare (numberFunc f))
    (h : functionCode bare allocator (numberFunc f) = .error d) :
    Endless d ∨ ∃ l ∈ missed f, d = .undefinedLabel l := by
  obtain ⟨body, memo, hrun, hmissed⟩ := exists_covered hlegible
  rcases bind_eq_error.mp h with h | ⟨⟨code, supply⟩, hselected, h⟩
  -- Selection fails only in tidying, for a label that the source misses.
  · rw [selected_eq hrun] at h
    rcases bind_eq_error.mp h with h | ⟨_, _, h⟩
    · rcases Tidy.tidy_eq_error h with h | ⟨l, hl, rfl⟩
      · exact .inl (.inl h)
      · exact .inr ⟨l, (hmissed l).mp hl, rfl⟩
    · cases h
  · obtain ⟨_, _, _, htidy, _⟩ := exists_of_selected hselected
    -- Code that was tidied once has all its labels, and so has what is made of it.
    have hdefined : ∀ l, ¬ Tidy.Dangles code l := by
      rintro l ⟨htarget, hlabel⟩
      exact hlabel (((Tidy.tidy_spec htidy).1 l).mpr htarget)
    have hsuits : Suits (framedBy fun v => ¬ v < 0) (numberFunc f) := by
      refine suits_framedBy (fun i hi => not_neg_argument ?_) ?_
      · have hlt : i + _ < f.args.length := hi
        omega
      · rw [map_plain_numberFunc]
        exact hnamed
    have hshape := hsuits.selected hselected
    rcases bind_eq_error.mp h with h | ⟨result, hallocated, h⟩
    · left
      cases allocator with
      | stack =>
        -- Allocation to the stack never fails.
        obtain ⟨result, hresult, _⟩ := allocateOnStack_spec supply
          (hshape.mono (between_le (fun _ _ => trivial) (Nat.le_refl _)))
        have hfail : allocateOnStack supply code = .error d := h
        rw [hresult] at hfail
        cases hfail
      | coalescing =>
        have hkept := skeleton_keepCalleeSaved code
        have hdefined' : ∀ l, ¬ Tidy.Dangles (keepCalleeSaved code) l :=
          fun l hl => hdefined l ((dangles_iff_of_skeleton hkept l).mp hl)
        rcases rounds_eq_error (between_keepCalleeSaved hshape) (fun _ hv => hv) hdefined' h with
          hd | ⟨slots, supply', code', hspills, hsize⟩
        · exact .inr hd
        · exact absurd ⟨code, supply, slots, supply', code', hselected, hspills, hsize⟩ hroom
    · rcases bind_eq_error.mp h with h | ⟨_, _, h⟩
      · rcases Tidy.tidy_eq_error h with h | ⟨l, hl, _⟩
        · exact .inl (.inl h)
        · exact absurd ((dangles_iff_of_skeleton (skeleton_allocated hallocated) l).mp hl)
            (hdefined l)
      · cases h

/-- A function that has code misses no label. -/
theorem missed_eq_nil (hlegible : f.Legible) {code : List Instr}
    (h : functionCode bare allocator (numberFunc f) = .ok code) : missed f = [] := by
  obtain ⟨body, memo, hrun, hmissed⟩ := exists_covered hlegible
  obtain ⟨_, hselected, _⟩ := bind_eq_ok.mp h
  rw [selected_eq hrun] at hselected
  obtain ⟨_, htidy, _⟩ := bind_eq_ok.mp hselected
  rw [eq_nil_iff_forall_not_mem]
  intro l hl
  exact Tidy.not_dangles_of_tidy htidy l ((hmissed l).mpr hl)

theorem exists_of_forM_eq_error {ε α : Type} {f : α → Except ε Unit} {xs : List α} {e : ε}
    (h : xs.forM f = .error e) : ∃ x ∈ xs, f x = .error e := by
  induction xs with
  | nil => cases h
  | cons x rest ih =>
    rcases bind_eq_error.mp h with hx | ⟨_, _, h⟩
    · exact ⟨x, mem_cons_self, hx⟩
    · obtain ⟨y, hy, hfy⟩ := ih h
      exact ⟨y, mem_cons_of_mem _ hy, hfy⟩

/-- A function is at fault with a defect if its temporaries are in order. -/
theorem function_eq_defect {fn : Func NodeStmt} {d : Defect} :
    function bare allocator fn = .error (.defect d) ↔
      (∀ t ∈ (fn.map NodeStmt.plain).temps, checkTemp fn.name t = .ok ()) ∧
        functionCode bare allocator fn = .error d := by
  have hcheck : ∀ t, checkTemp fn.name t ≠ .error (.defect d) := by
    grind [checkTemp]
  unfold function
  rw [bind_eq_error, ← forM_eq_ok]
  constructor
  · rintro (hforM | ⟨_, hforM, h⟩)
    · obtain ⟨t, _, ht⟩ := exists_of_forM_eq_error hforM
      exact absurd ht (hcheck t)
    · split at h
      next => cases h
      next d' hcode =>
        cases h
        exact ⟨hforM, hcode⟩
  · rintro ⟨hforM, hcode⟩
    exact .inr ⟨(), hforM, by rw [hcode]; rfl⟩

end

/-- Generation for a text comes to a function: those before it have code, and its temporaries
have names that they may have. -/
structure ComesTo (config : Config) (text : Bytes) (allocator : Allocator) (f : SourceFunc) :
    Prop where
  known : Allocator.ofName? config.allocator = some allocator
  reached : ∃ m before after, Module.read text = .ok m ∧ m.funcs = before ++ f :: after ∧
    ∀ g ∈ before, ∃ code, function config.removeComments allocator (numberFunc g) = .ok code
  named : Named f

section

variable {config : Config} {text : Bytes} {m : SourceModule} {d : Defect}

theorem compile_eq_defect : compile config text = .error (.generate (.defect d)) ↔
    ∃ m, Module.read text = .ok m ∧ generate config (numberModule m) = .error (.defect d) := by
  unfold compile
  cases Module.read text with
  | error fault =>
    constructor
    · intro h
      cases h
    · rintro ⟨_, h, _⟩
      cases h
  | ok m =>
    constructor
    · intro h
      refine ⟨m, rfl, ?_⟩
      dsimp only at h
      split at h
      next fault hfault =>
        rw [hfault]
        cases h
        rfl
      next => cases h
    · rintro ⟨m', hm, h⟩
      cases hm
      dsimp only
      rw [h]
      rfl

theorem generate_eq_defect : generate config (numberModule m) = .error (.defect d) ↔
    ∃ allocator, Allocator.ofName? config.allocator = some allocator ∧
      m.funcs.mapM (function config.removeComments allocator ∘ numberFunc) =
        .error (.defect d) := by
  unfold generate
  cases hknown : Allocator.ofName? config.allocator with
  | none =>
    constructor
    · intro h
      cases h
    · rintro ⟨_, h, _⟩
      cases h
  | some allocator =>
    rw [funcs_numberModule]
    dsimp only
    rw [bind_eq_error, mapM_map]
    constructor
    · rintro (h | ⟨_, _, h⟩)
      · exact ⟨allocator, rfl, h⟩
      · cases h
    · rintro ⟨_, hsome, h⟩
      cases hsome
      exact .inl h

/-- A program has the defect of the first function that has no code. -/
theorem compile_eq_defect_iff : compile config text = .error (.generate (.defect d)) ↔
    ∃ allocator f, ComesTo config text allocator f ∧
      functionCode config.removeComments allocator (numberFunc f) = .error d := by
  rw [compile_eq_defect]
  constructor
  · rintro ⟨m, hread, hgenerate⟩
    obtain ⟨allocator, hknown, hfuncs⟩ := generate_eq_defect.mp hgenerate
    obtain ⟨before, f, after, hsplit, hbefore, hf⟩ := mapM_eq_error.mp hfuncs
    obtain ⟨hnamed, hcode⟩ := function_eq_defect.mp hf
    rw [map_plain_numberFunc] at hnamed
    exact ⟨allocator, f, ⟨hknown, ⟨m, before, after, hread, hsplit, hbefore⟩, hnamed⟩, hcode⟩
  · rintro ⟨allocator, f, ⟨hknown, ⟨m, before, after, hread, hsplit, hbefore⟩, hnamed⟩, hcode⟩
    rw [Named, ← map_plain_numberFunc f] at hnamed
    have hf := function_eq_defect.mpr ⟨hnamed, hcode⟩
    exact ⟨m, hread, generate_eq_defect.mpr ⟨allocator, hknown,
      mapM_eq_error.mpr ⟨before, f, after, hsplit, hbefore, hf⟩⟩⟩

/-- Where generation for a text ends, it ends in a defect if and only if it comes to a function
that goes to a label which it does not have, and the defect names such a label. -/
theorem broken_iff_missed (hlength : text.length < 2 ^ 58)
    (hends : ∀ d, compile config text = .error (.generate (.defect d)) → ¬ Endless d)
    (hroom : ∀ m, Module.read text = .ok m → ∀ f ∈ m.funcs,
      ¬ Exhausts config.removeComments (numberFunc f)) :
    (∀ d, compile config text = .error (.generate (.defect d)) →
      ∃ allocator f, ComesTo config text allocator f ∧ ∃ l ∈ missed f, d = .undefinedLabel l) ∧
    ∀ allocator f, ComesTo config text allocator f → missed f ≠ [] →
      ∃ l ∈ missed f, compile config text = .error (.generate (.defect (.undefinedLabel l))) := by
  -- What is known of a function that generation comes to and that has no code.
  have hfunction : ∀ {allocator f d}, ComesTo config text allocator f →
      functionCode config.removeComments allocator (numberFunc f) = .error d →
        ∃ l ∈ missed f, d = .undefinedLabel l := by
    intro allocator f d hf hcode
    obtain ⟨m, before, after, hread, hsplit, _⟩ := hf.reached
    have hmem : f ∈ m.funcs := hsplit ▸ List.mem_append_right _ List.mem_cons_self
    have hargs := Module.length_args_le hread f hmem
    have hlegible := (Module.legible_of_read hread).funcs f hmem
    rcases functionCode_eq_error hlegible hf.named (by omega) (hroom m hread f hmem) hcode with
      hendless | hmissed
    · exact absurd hendless (hends d (compile_eq_defect_iff.mpr ⟨allocator, f, hf, hcode⟩))
    · exact hmissed
  constructor
  · grind [compile_eq_defect_iff]
  · intro allocator f hf hmissed
    obtain ⟨m, before, after, hread, hsplit, _⟩ := hf.reached
    have hmem : f ∈ m.funcs := hsplit ▸ List.mem_append_right _ List.mem_cons_self
    have hlegible := (Module.legible_of_read hread).funcs f hmem
    cases hcode : functionCode config.removeComments allocator (numberFunc f) with
    | ok code => exact absurd (missed_eq_nil hlegible hcode) hmissed
    | error d =>
      grind [compile_eq_defect_iff]

end

/-- A function that goes to a label which it does not have. -/
def astray : Bytes := "func f() \x7b\ngoto L\n\x7d\n"

/-- That function. -/
def astrayFunc : SourceFunc :=
  { name := "f", args := [], returns := false, body := [.jump "L"] }

theorem astray_broken : missed astrayFunc = ["L"] ∧
    ∃ l ∈ missed astrayFunc,
      compile ⟨true, []⟩ astray = .error (.generate (.defect (.undefinedLabel l))) := by
  have hread : Module.read astray = .ok { globals := [], funcs := [astrayFunc] } := by
    decide +kernel
  have hmissed : missed astrayFunc = ["L"] := by decide
  have hselected : selected true (numberFunc astrayFunc) = .error (.undefinedLabel "L") := by
    decide +kernel
  have hnamed : Named astrayFunc := by simp [Named, astrayFunc, Func.temps, Stmt.temps]
  have hcomes : ComesTo ⟨true, []⟩ astray .coalescing astrayFunc :=
    ⟨rfl, ⟨_, [], [], hread, rfl, by simp⟩, hnamed⟩
  have hcode : functionCode true .coalescing (numberFunc astrayFunc) =
      .error (.undefinedLabel "L") := bind_eq_error.mpr (.inl hselected)
  have hbroken := compile_eq_defect_iff.mpr ⟨.coalescing, astrayFunc, hcomes, hcode⟩
  refine ⟨hmissed, (broken_iff_missed (by decide) ?_ ?_).2 .coalescing astrayFunc hcomes ?_⟩
  · intro d hd
    rw [hbroken] at hd
    cases hd
    rintro (⟨_, h⟩ | h) <;> cases h
  · rintro m hm f hf ⟨_, _, _, _, _, hexhausts, _⟩
    rw [hread] at hm
    cases hm
    rw [List.mem_singleton.mp hf, hselected] at hexhausts
    cases hexhausts
  · rw [hmissed]
    decide

end Generate

end X64Backend
