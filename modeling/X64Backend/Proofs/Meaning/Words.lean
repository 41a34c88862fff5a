import X64Backend.Meaning.Run
import X64Backend.Proofs.Select.Statements

/-! # Values and machine words

Evaluation keeps values: words, and functions. In a state of the machine a value is a word,
a function's being its address. Where temporaries, memory and names fit, an expression that
has a value has the word for it, and a statement does to both sides the same.
-/

namespace X64Backend.Select

open Asm Code Machine Meaning

/-- The word that stands for a value. -/
def Setting.Fits (S : Setting) : Value → Int64 → Prop
  | .word v, w => v = w
  | .func n, w => S.img.constValue (.sym n) = .ok w

/-- What names, temporaries and memory are for evaluation fits a state of the machine. -/
structure Setting.Reads (S : Setting) (scope : Scope) (temps : Temps) (memory : Memory)
    (s : State) : Prop where
  limit : scope.limit = S.limit
  visible (a : Int64) : S.hidden a = false := by intros; rfl
  globals {n : Name} {a : Int64} (h : scope.globals n = some a) :
    S.img.constValue (.sym n) = .ok a
  funcs {n : Name} (hglobals : scope.globals n = none) (h : scope.isFunc n = true) :
    ∃ a, S.img.constValue (.sym n) = .ok a
  temps {t : Name} {v : Value} (h : temps t = some v) (ht : UserName t) :
    S.Fits v (s.get (.ofName t))
  memory {a : Int64} (h : a < S.limit) : memory.read a = s.memory.read a

namespace Setting.Reads

variable {S : Setting} {scope : Scope} {temps : Temps} {memory : Memory} {s : State}

theorem checkAddress_eq_ok (h : S.Reads scope temps memory s) {a : Int64} :
    scope.checkAddress a = .ok () ↔ ∃ v, S.load? s.memory a = some v := by
  simp only [Setting.load?_eq_some, Scope.checkAddress, h.limit, h.visible a, and_true]
  cases State.checkAddress a with
  | error t => simp
  | ok u =>
    by_cases hlt : a < S.limit
    · simp [hlt, Int64.not_le.mpr hlt]
    · simp [hlt, Int64.not_lt.mp hlt]

/-- An expression that has a value has the word that stands for it. -/
theorem value_of_eval (h : S.Reads scope temps memory s) {e : Expr} (he : WellNamed e) {v : Value}
    (hv : eval scope temps memory e = .ok v) : ∃ w, S.value s e = some w ∧ S.Fits v w := by
  induction e generalizing v with
  | const c =>
    cases hv
    exact ⟨c, rfl, rfl⟩
  | name n =>
    simp only [eval, Scope.name] at hv
    split at hv
    next a ha =>
      cases hv
      exact ⟨a, toOption_eq_some.mpr (h.globals ha), rfl⟩
    next hglobals =>
      split at hv
      next hfunc =>
        cases hv
        obtain ⟨a, ha⟩ := h.funcs hglobals hfunc
        exact ⟨a, toOption_eq_some.mpr ha, ha⟩
      next => cases hv
  | temp t =>
    simp only [eval] at hv
    split at hv
    next v' ht =>
      cases hv
      exact ⟨_, rfl, h.temps ht he⟩
    next => cases hv
  | mem a ih =>
    simp only [eval, bind_eq_ok, pure_eq_ok] at hv
    obtain ⟨va, hva, wa, hwa, _, hcheck, rfl⟩ := hv
    obtain ⟨w, hvalue, hfits⟩ := ih he hva
    cases va with
    | func n => cases hwa
    | word u =>
      cases hwa
      cases hfits
      -- The address is one where the two memories are alike.
      obtain ⟨x, hx⟩ := h.checkAddress_eq_ok.mp hcheck
      obtain ⟨_, ⟨hlt, _⟩, hread⟩ := Setting.load?_eq_some.mp hx
      refine ⟨x, by simp [Setting.value, hvalue, hx], ?_⟩
      rw [← hread]
      exact h.memory hlt
  | binary op l r ihl ihr =>
    simp only [eval, bind_eq_ok, pure_eq_ok] at hv
    obtain ⟨vl, hvl, wl, hwl, vr, hvr, wr, hwr, x, hx, rfl⟩ := hv
    obtain ⟨ul, hul, hfl⟩ := ihl he.1 hvl
    obtain ⟨ur, hur, hfr⟩ := ihr he.2 hvr
    cases vl with
    | func n => cases hwl
    | word ul' =>
      cases vr with
      | func n => cases hwr
      | word ur' =>
        cases hwl
        cases hwr
        cases hfl
        cases hfr
        exact ⟨x, by rw [S.value_binary hul hur, hx]; rfl, rfl⟩
  | absent => cases hv

/-- An expression whose value is a word has that word. -/
theorem value_of_word (h : S.Reads scope temps memory s) {e : Expr} (he : WellNamed e)
    {v : Value} {w : Int64} (hv : eval scope temps memory e = .ok v) (hw : v.toWord = .ok w) :
    S.value s e = some w := by
  obtain ⟨u, hu, hfits⟩ := h.value_of_eval he hv
  cases v with
  | func n => cases hw
  | word v' =>
    cases hw
    cases hfits
    exact hu

end Setting.Reads

/-- A result and the word for it. -/
inductive Setting.Returns (S : Setting) : Option Value → Option Int64 → Prop
  | none : Returns S none none
  | some {v : Value} {w : Int64} (h : S.Fits v w) : Returns S (some v) (some w)

/-- A run goes on inside a function, behind the statement or at a label. -/
structure Continues (c c' : Meaning.Config) (exit : Option Name) : Prop where
  waiting : c'.waiting = c.waiting
  func : c'.frame.func = c.frame.func
  heap : c'.world.heap = c.world.heap
  output : c'.world.output = c.world.output
  position : match exit with
    | none => c'.frame.position = c.frame.position + 1
    | some l => labelPosition? c.frame.func.body l = some c'.frame.position

theorem Continues.advance (c : Meaning.Config) : Continues c c.advance none :=
  ⟨rfl, rfl, rfl, rfl, rfl⟩

theorem Continues.of_goto {c c' : Meaning.Config} {l : Name} (h : c.goto l = .ok c') :
    Continues c c' (some l) ∧ c'.frame.temps = c.frame.temps ∧ c'.world = c.world := by
  unfold Meaning.Config.goto at h
  split at h
  next i hi =>
    cases h
    exact ⟨⟨rfl, rfl, rfl, rfl, hi⟩, rfl, rfl⟩
  next => cases h

section

variable {S : Setting} {scope : Scope} {temps : Temps} {memory : Memory} {s s' : State}

theorem Setting.Reads.of_leaves {x : Effect} (h : S.Reads scope temps memory s)
    (hx : x.Leaves s s') (htemps : x.temps = fun t => s.get (.ofName t))
    (hmemory : x.memory = s.memory) : S.Reads scope temps memory s' where
  limit := h.limit
  visible := h.visible
  globals := h.globals
  funcs := h.funcs
  temps hv ht := by
    rw [hx.user ht, htemps]
    exact h.temps hv ht
  memory hlt := by
    rw [hx.memory, hmemory]
    exact h.memory hlt

/-- Where evaluation executes a statement without a call, the statement has an effect, and
evaluation goes on in agreement with every state that the effect leaves. -/
theorem Setting.Reads.effect_of_exec {ctx : Context} {c : Meaning.Config} {stmt : Stmt Expr}
    {p : Progress} (h : S.Reads ctx.scope c.frame.temps c.world.memory s)
    (hnamed : StmtNamed stmt) (hcall : ∀ f args result, stmt ≠ .call f args result)
    (func : Name) (hp : exec ctx c stmt = .ok p) : ∃ x, S.effect func s stmt = some x ∧
      ((∃ c', p = .running c' ∧ Continues c c' x.exit ∧
        (c.world.memory = s.memory → c'.world.memory = x.memory) ∧
        ∀ s', x.Leaves s s' → S.Reads ctx.scope c'.frame.temps c'.world.memory s') ∨
      (∃ v, p = c.leave v ∧ x.exit = some (epilogueLabel func) ∧ x.memory = s.memory ∧
        x.temps = (fun t => s.get (.ofName t)) ∧ S.Returns v x.result ∧
        ∀ u ∈ v, ∃ e, WellNamed e ∧
          eval ctx.scope c.frame.temps c.world.memory e = .ok u)) := by
  cases stmt with
  | move dest src =>
    simp only [exec, bind_eq_ok, pure_eq_ok] at hp
    obtain ⟨v, hv, rfl⟩ := hp
    obtain ⟨w, hw, hfits⟩ := h.value_of_eval hnamed.2 hv
    refine ⟨⟨none, fun t => if t = dest then w else s.get (.ofName t), s.memory, none⟩,
      by simp [Setting.effect, hw], .inl ⟨_, rfl, ⟨rfl, rfl, rfl, rfl, rfl⟩, fun hm => hm, ?_⟩⟩
    intro s' hx
    refine ⟨h.limit, h.visible, h.globals, h.funcs, ?_, ?_⟩
    · intro t u ht hut
      rw [hx.user hut]
      -- The temporary has the new value, and the others keep theirs.
      by_cases heq : t = dest
      · subst heq
        have : some v = some u := by
          simpa [Meaning.Config.assign, Meaning.Config.advance, Temps.set] using ht
        cases this
        simpa using hfits
      · have : c.frame.temps t = some u := by
          simpa [Meaning.Config.assign, Meaning.Config.advance, Temps.set, heq] using ht
        simpa [heq] using h.temps this hut
    · intro a ha
      rw [hx.memory]
      exact h.memory ha
  | store a src =>
    simp only [exec, bind_eq_ok, pure_eq_ok] at hp
    obtain ⟨va, hva, address, haddress, vs, hvs, w, hw, _, hcheck, rfl⟩ := hp
    have ha := h.value_of_word hnamed.1 hva haddress
    have hsrc := h.value_of_word hnamed.2 hvs hw
    obtain ⟨u, hu⟩ := h.checkAddress_eq_ok.mp hcheck
    refine ⟨⟨none, fun t => s.get (.ofName t), s.memory.write address w, none⟩,
      by simp [Setting.effect, ha, hsrc, hu],
      .inl ⟨_, rfl, ⟨rfl, rfl, rfl, rfl, rfl⟩, fun hm => congrArg (Memory.write · address w) hm, ?_⟩⟩
    intro s' hx
    refine ⟨h.limit, h.visible, h.globals, h.funcs, ?_, ?_⟩
    · intro t v ht hut
      rw [hx.user hut]
      exact h.temps ht hut
    · intro b hb
      rw [hx.memory, Memory.read_write, h.memory hb]
      exact (Memory.read_write _ _ _ _).symm
  | call f args result => exact absurd rfl (hcall f args result)
  | jump l =>
    simp only [exec, bind_eq_ok, pure_eq_ok] at hp
    obtain ⟨c', hgoto, rfl⟩ := hp
    obtain ⟨hcontinues, htemps, hworld⟩ := Continues.of_goto hgoto
    refine ⟨_, rfl, .inl ⟨c', rfl, hcontinues, fun hm => by rw [hworld]; exact hm, fun s' hx => ?_⟩⟩
    rw [htemps, hworld]
    exact h.of_leaves hx rfl rfl
  | label l =>
    simp only [exec, pure_eq_ok] at hp
    subst hp
    exact ⟨_, rfl, .inl ⟨_, rfl, .advance c, fun hm => hm, fun s' hx => h.of_leaves hx rfl rfl⟩⟩
  | branch cond l =>
    simp only [exec, bind_eq_ok] at hp
    obtain ⟨v, hv, w, hw, hp⟩ := hp
    have hcond := h.value_of_word hnamed hv hw
    refine ⟨_, by simp only [Setting.effect, hcond]; rfl, .inl ?_⟩
    split at hp
    next hzero =>
      cases pure_eq_ok.mp hp
      refine ⟨_, rfl, ?_, fun hm => hm, fun s' hx => h.of_leaves hx rfl rfl⟩
      simpa [hzero] using Continues.advance c
    next hzero =>
      simp only [bind_eq_ok, pure_eq_ok] at hp
      obtain ⟨c', hgoto, rfl⟩ := hp
      obtain ⟨hcontinues, htemps, hworld⟩ := Continues.of_goto hgoto
      refine ⟨c', rfl, by simpa [hzero] using hcontinues, fun hm => by rw [hworld]; exact hm,
        fun s' hx => ?_⟩
      rw [htemps, hworld]
      exact h.of_leaves hx rfl rfl
  | ret value =>
    cases value with
    | none =>
      simp only [exec, pure_eq_ok] at hp
      refine ⟨_, rfl, .inr ⟨_, hp.symm, rfl, rfl, rfl, .none, ?_⟩⟩
      rintro _ ⟨⟩
    | some e =>
      simp only [exec, bind_eq_ok, pure_eq_ok] at hp
      obtain ⟨v, hv, rfl⟩ := hp
      obtain ⟨w, hw, hfits⟩ := h.value_of_eval hnamed hv
      refine ⟨_, by simp only [Setting.effect, hw]; rfl,
        .inr ⟨_, rfl, rfl, rfl, rfl, .some hfits, ?_⟩⟩
      rintro u ⟨⟩
      exact ⟨e, hnamed, hv⟩
  | absent => cases hp

end

end X64Backend.Select
