import X64Backend.Proofs.Machine.Straight

/-! # Runs of one function's code

The code of one function is run by itself: what a call does is given from outside, as the
outcomes a call may have. A run ends behind the last instruction or at a trap. One code
simulates another if each step of the first is answered by steps of the second; then the
second ends as the first does, and goes on for ever if the first does.
-/

namespace X64Backend.Machine

open Asm

/-- The program that consists of code and globals. -/
def imageOf (globals : Std.TreeMap Name Int64) (code : List Instr) : Image :=
  { code := code.toArray, labels := labelTable code, globals }

/-- What a call goes to. -/
inductive Callee
  | symbol (n : Name)
  | address (v : Int64)

/-- The outcomes of calls, from the state behind the call. -/
abbrev Calls := Callee → State → Outcome → Prop

/-- How a run of one function's code ends. -/
inductive Ending
  | finished (s : State)
  | failed (t : Trap) (s : State)

/-- What the operand of a call stands for. -/
def Image.callee (img : Image) (s : State) : Operand → Except Trap Callee
  | .const (.sym n) => .ok (.symbol n)
  | a => Callee.address <$> img.value s a

/-- Whether an instruction is a call. -/
def isCall : Instr → Bool
  | .call _ => true
  | _ => false

/-- The outcomes of an instruction. -/
def Image.Moves (img : Image) (calls : Calls) (s : State) (x : Instr) (o : Outcome) : Prop :=
  match x with
  | .call a => match img.callee s.advance a with
    | .ok c => calls c s.advance o
    | .error t => o = .error (t, s.advance)
  | x => o = img.exec s.advance x

/-- The instruction that a state stands before. -/
def Image.At (img : Image) (s : State) (x : Instr) : Prop :=
  ∃ i : Nat, s.ip = i ∧ img.code[i]? = some x

/-- Every run from a state meets the side condition at each step and ends as told. -/
inductive Image.Settles (img : Image) (calls : Calls) (ok : State → Instr → Prop)
    (Q : Ending → Prop) : State → Prop
  | done {s : State} (hip : s.ip = img.code.size) (hQ : Q (.finished s)) : Settles img calls ok Q s
  | step {s : State} {x : Instr} (hx : img.At s x) (hok : ok s x)
      (hnext : ∀ s', img.Moves calls s x (.ok s') → Settles img calls ok Q s')
      (hfail : ∀ t s', img.Moves calls s x (.error (t, s')) → Q (.failed t s')) :
      Settles img calls ok Q s

/-- Some run from a state takes a number of steps and meets the side condition at each. -/
def Image.Lasts (img : Image) (calls : Calls) (ok : State → Instr → Prop) : Nat → State → Prop
  | 0, _ => True
  | n + 1, s => ∃ x s', img.At s x ∧ ok s x ∧ img.Moves calls s x (.ok s') ∧
      Image.Lasts img calls ok n s'

/-- The state and every state after it can go on. -/
def Image.Endless (img : Image) (calls : Calls) (ok : State → Instr → Prop) (s : State) : Prop :=
  ∀ n, img.Lasts calls ok n s

/-- Every run from a state takes one or more steps to an outcome as told. -/
inductive Image.Advances (img : Image) (calls : Calls) (ok : State → Instr → Prop)
    (P : Outcome → Prop) : State → Prop
  | last {s : State} {x : Instr} (hx : img.At s x) (hok : ok s x)
      (h : ∀ o, img.Moves calls s x o → P o) : Advances img calls ok P s
  | more {s : State} {x : Instr} (hx : img.At s x) (hok : ok s x)
      (hnext : ∀ s', img.Moves calls s x (.ok s') → Advances img calls ok P s')
      (hfail : ∀ e, img.Moves calls s x (.error e) → P (.error e)) : Advances img calls ok P s

/-- Each call has exactly one outcome. -/
structure Calls.Functional (calls : Calls) : Prop where
  exists_outcome : ∀ c s, ∃ o, calls c s o
  unique : ∀ c s o o', calls c s o → calls c s o' → o = o'

section

variable {img img' : Image} {calls : Calls} {ok ok' : State → Instr → Prop} {Q : Ending → Prop}
  {s s' t : State} {x y : Instr} {o o' : Outcome}

theorem Image.At.unique (h : img.At s x) (h' : img.At s y) : x = y := by
  obtain ⟨i, hi, hx⟩ := h
  obtain ⟨j, hj, hy⟩ := h'
  have hij : i = j := by omega
  subst hij
  exact Option.some.inj (hx.symm.trans hy)

theorem Image.moves_of_not_call (hx : isCall x = false) :
    img.Moves calls s x o ↔ o = img.exec s.advance x := by
  cases x with
  | call a => cases hx
  | _ => exact Iff.rfl

theorem Calls.Functional.exists_moves (h : calls.Functional) (img : Image) (s : State)
    (x : Instr) : ∃ o, img.Moves calls s x o := by
  by_cases hx : isCall x = false
  · exact ⟨_, (Image.moves_of_not_call hx).mpr rfl⟩
  · cases x with
    | call a =>
      simp only [Image.Moves]
      cases img.callee s.advance a with
      | ok c => exact h.exists_outcome c _
      | error t => exact ⟨_, rfl⟩
    | _ => exact absurd rfl hx

theorem Calls.Functional.moves_unique (h : calls.Functional) (ho : img.Moves calls s x o)
    (ho' : img.Moves calls s x o') : o = o' := by
  by_cases hx : isCall x = false
  · rw [Image.moves_of_not_call hx] at ho ho'
    rw [ho, ho']
  · cases x with
    | call a =>
      simp only [Image.Moves] at ho ho'
      cases hc : img.callee s.advance a with
      | ok c =>
        rw [hc] at ho ho'
        exact h.unique c _ _ _ ho ho'
      | error t =>
        rw [hc] at ho ho'
        exact ho.trans ho'.symm
    | _ => exact absurd rfl hx

theorem Image.Settles.mono {Q' : Ending → Prop} (hok : ∀ s x, ok s x → ok' s x)
    (hQ : ∀ e, Q e → Q' e) (h : img.Settles calls ok Q s) : img.Settles calls ok' Q' s := by
  induction h with
  | done hip h => exact .done hip (hQ _ h)
  | step hx ho _ hfail ih =>
    exact .step hx (hok _ _ ho) ih fun t s' hs' => hQ _ (hfail t s' hs')

/-- What holds at first and is kept by every step holds at the end. -/
theorem Image.Settles.invariant {I : State → Prop} (h : img.Settles calls ok Q s) (hs : I s)
    (hI : ∀ s x s', I s → img.At s x → ok s x → img.Moves calls s x (.ok s') → I s') :
    img.Settles calls ok (fun e => Q e ∧ ∀ s', e = .finished s' → I s') s := by
  induction h with
  | done hip hQ =>
    refine .done hip ⟨hQ, ?_⟩
    intro s' hs'
    cases hs'
    exact hs
  | step hx hok _ hfail ih =>
    refine .step hx hok (fun s' hs' => ih s' hs' (hI _ _ _ hs hx hok hs')) ?_
    exact fun t s' hs' => ⟨hfail t s' hs', fun _ h => nomatch h⟩

/-- An endless run goes on endlessly behind its first step. -/
theorem Image.Endless.step (hcalls : calls.Functional) (h : img.Endless calls ok s) :
    ∃ x s', img.At s x ∧ ok s x ∧ img.Moves calls s x (.ok s') ∧ img.Endless calls ok s' := by
  obtain ⟨x, s', hx, hok, hs', _⟩ := h 1
  refine ⟨x, s', hx, hok, hs', ?_⟩
  intro n
  obtain ⟨y, s'', hy, _, hs'', hn⟩ := h (n + 1)
  cases hx.unique hy
  cases hcalls.moves_unique hs' hs''
  exact hn

theorem Image.Advances.mono {P P' : Outcome → Prop} (h : img.Advances calls ok P s)
    (hmono : ∀ s x, ok s x → ok' s x) (hP : ∀ o, P o → P' o) : img.Advances calls ok' P' s := by
  induction h with
  | last hx hok h => exact .last hx (hmono _ _ hok) fun o ho => hP o (h o ho)
  | more hx hok _ hfail ih => exact .more hx (hmono _ _ hok) ih fun e he => hP _ (hfail e he)

/-- Steps to states from which every run settles. -/
theorem Image.Advances.settles {P : Outcome → Prop} (h : img.Advances calls ok P s)
    (hok : ∀ s', P (.ok s') → img.Settles calls ok Q s')
    (herr : ∀ t s', P (.error (t, s')) → Q (.failed t s')) : img.Settles calls ok Q s := by
  induction h with
  | last hx ho h =>
    exact .step hx ho (fun s' hs' => hok s' (h _ hs')) fun t s' hs' => herr t s' (h _ hs')
  | more hx ho _ hfail ih =>
    exact .step hx ho ih fun t s' hs' => herr t s' (hfail _ hs')

theorem Image.Lasts.of_succ {n : Nat} (h : img.Lasts calls ok (n + 1) s) :
    img.Lasts calls ok n s := by
  induction n generalizing s with
  | zero => trivial
  | succ n ih =>
    obtain ⟨x, s', hx, ho, hmove, hrest⟩ := h
    exact ⟨x, s', hx, ho, hmove, ih hrest⟩

/-- Steps to states from which a run goes on. -/
theorem Image.Advances.lasts {P : Outcome → Prop} (hcalls : calls.Functional) {n : Nat}
    (h : img.Advances calls ok P s) (hok : ∀ s', P (.ok s') → img.Lasts calls ok n s')
    (herr : ∀ e, ¬ P (.error e)) : img.Lasts calls ok (n + 1) s := by
  induction h with
  | @last s x hx ho h =>
    obtain ⟨o, hmove⟩ := hcalls.exists_moves img s x
    cases o with
    | error e => exact absurd (h _ hmove) (herr e)
    | ok s' => exact ⟨x, s', hx, ho, hmove, hok s' (h _ hmove)⟩
  | @more s x hx ho hnext hfail ih =>
    obtain ⟨o, hmove⟩ := hcalls.exists_moves img s x
    cases o with
    | error e => exact absurd (hfail e hmove) (herr e)
    | ok s' =>
      refine ⟨x, s', hx, ho, hmove, ?_⟩
      exact (ih s' hmove).of_succ

end

/-- Two outcomes correspond: both go on in related states or both fail, with related ends. -/
inductive Outcome.Related (R : State → State → Prop) (E : Ending → Ending → Prop) :
    Outcome → Outcome → Prop
  | ok {s t : State} (h : R s t) : Related R E (.ok s) (.ok t)
  | error {e e' : Trap} {s t : State} (h : E (.failed e s) (.failed e' t)) :
      Related R E (.error (e, s)) (.error (e', t))

/-- Each step of one code is answered by steps of another. A step may also be passed over,
but only so often in a row as the measure allows. -/
structure Simulation (calls : Calls) (img img' : Image) (ok ok' : State → Instr → Prop)
    (E : Ending → Ending → Prop) (R : State → State → Prop) (μ : State → Nat) : Prop where
  ends : ∀ {s t}, R s t → s.ip = img.code.size → img'.Settles calls ok' (E (.finished s)) t
  step : ∀ {s t x}, R s t → img.At s x → ok s x →
    (∃ s', (∀ o, img.Moves calls s x o ↔ o = .ok s') ∧ R s' t ∧ μ s' < μ s) ∨
      img'.Advances calls ok'
        (fun o' => ∃ o, img.Moves calls s x o ∧ Outcome.Related R E o o') t

namespace Simulation

variable {calls : Calls} {img img' : Image} {ok ok' : State → Instr → Prop}
  {E : Ending → Ending → Prop} {R : State → State → Prop} {μ : State → Nat} {s t : State}

variable (sim : Simulation calls img img' ok ok' E R μ)

include sim

theorem congr {ok'' : State → Instr → Prop} {R' : State → State → Prop}
    (hok : ∀ s x, ok' s x → ok'' s x)
    (hR : ∀ s t, R s t ↔ R' s t) : Simulation calls img img' ok ok'' E R' μ where
  ends {s t} h hip := (sim.ends ((hR s t).mpr h) hip).mono hok fun _ he => he
  step {s t x} h hx hx' := by
    refine (sim.step ((hR s t).mpr h) hx hx').imp ?_ ?_
    · rintro ⟨s', hmove, hs', hμ⟩
      exact ⟨s', hmove, (hR s' t).mp hs', hμ⟩
    · refine fun hadv => hadv.mono hok ?_
      rintro o' ⟨o, ho, hrelated⟩
      refine ⟨o, ho, ?_⟩
      cases hrelated with
      | ok h => exact .ok ((hR _ _).mp h)
      | error h => exact .error h

/-- If every run of the simulated code ends, so does every run of the other. -/
theorem settles {Q : Ending → Prop}
    (h : img.Settles calls ok Q s) (hR : R s t) :
    img'.Settles calls ok' (fun e' => ∃ e, Q e ∧ E e e') t := by
  induction h generalizing t with
  | done hip hQ =>
    exact (sim.ends hR hip).mono (fun _ _ h => h) fun e' he' => ⟨_, hQ, he'⟩
  | step hx hok _ hfail ih =>
    rcases sim.step hR hx hok with ⟨s', hmove, hR', _⟩ | hadv
    · exact ih s' ((hmove _).mpr rfl) hR'
    · apply hadv.settles
      · intro t' ht'
        obtain ⟨o, ho, hrel⟩ := ht'
        cases hrel with
        | ok hR' => exact ih _ ho hR'
      · intro e' t' ht'
        obtain ⟨o, ho, hrel⟩ := ht'
        cases hrel with
        | error hE => exact ⟨_, hfail _ _ ho, hE⟩

/-- If the simulated code runs for ever, so does the other. -/
theorem endless (hcalls : calls.Functional)
    (h : img.Endless calls ok s) (hR : R s t) : img'.Endless calls ok' t := by
  intro n
  induction n generalizing s t with
  | zero => trivial
  | succ n ih =>
    -- steps that are passed over lower the measure, so some step is answered
    induction hm : μ s using Nat.strongRecOn generalizing s with
    | ind m ihm =>
      obtain ⟨x, s', hx, hok, hs', hrest⟩ := h.step hcalls
      rcases sim.step hR hx hok with ⟨s'', hmove, hR', hμ⟩ | hadv
      · cases (hmove _).mp hs'
        exact ihm _ (hm ▸ hμ) hrest hR' rfl
      · apply hadv.lasts hcalls
        · intro t' ht'
          obtain ⟨o, ho, hrel⟩ := ht'
          cases hcalls.moves_unique hs' ho
          cases hrel with
          | ok hR' => exact ih hrest hR'
        · intro e he
          obtain ⟨o, ho, hrel⟩ := he
          cases hcalls.moves_unique hs' ho
          cases hrel

omit sim

end Simulation

/-- One code from a state runs as another code does from a state: if every run of the other
ends, so does every run of it, with an end that corresponds, and if the other runs for ever, so
does it. -/
structure RunsAs (calls : Calls) (E : Ending → Ending → Prop) (img : Image)
    (ok : State → Instr → Prop) (s : State) (img' : Image) (ok' : State → Instr → Prop)
    (t : State) : Prop where
  settles {Q : Ending → Prop} (h : img.Settles calls ok Q s) :
    img'.Settles calls ok' (fun e' => ∃ e, Q e ∧ E e e') t
  endless (hcalls : calls.Functional) (h : img.Endless calls ok s) : img'.Endless calls ok' t

namespace RunsAs

variable {calls : Calls} {E E' : Ending → Ending → Prop} {img img' img'' : Image}
  {ok ok' ok'' : State → Instr → Prop} {R : State → State → Prop} {μ : State → Nat} {s t u : State}

theorem of_simulation (sim : Simulation calls img img' ok ok' E R μ) (hR : R s t) :
    RunsAs calls E img ok s img' ok' t :=
  ⟨fun h => sim.settles h hR, fun hcalls h => sim.endless hcalls h hR⟩

theorem refl (hE : ∀ e, E e e) : RunsAs calls E img ok s img ok s :=
  ⟨fun h => h.mono (fun _ _ h => h) fun e he => ⟨e, he, hE e⟩, fun _ h => h⟩

theorem trans (h : RunsAs calls E img ok s img' ok' t) (h' : RunsAs calls E img' ok' t img'' ok'' u)
    (hE : ∀ {a b c}, E a b → E b c → E a c) : RunsAs calls E img ok s img'' ok'' u where
  settles hs := by
    refine (h'.settles (h.settles hs)).mono (fun _ _ h => h) ?_
    rintro e'' ⟨e', ⟨e, he, hee'⟩, he'⟩
    exact ⟨e, he, hE hee' he'⟩
  endless hcalls hs := h'.endless hcalls (h.endless hcalls hs)

theorem mono (h : RunsAs calls E img ok s img' ok' t) (hE : ∀ {a b}, E a b → E' a b) :
    RunsAs calls E' img ok s img' ok' t where
  settles hs := by
    refine (h.settles hs).mono (fun _ _ h => h) ?_
    rintro e' ⟨e, he, hee'⟩
    exact ⟨e, he, hE hee'⟩
  endless := h.endless

end RunsAs

end X64Backend.Machine
