import X64Backend.Proofs.Meaning.Words
import X64Backend.Proofs.Select.Placement

/-! # Evaluation beside the machine

Evaluation whose temporaries are the words in the machine's registers and whose memory is
the machine's. All its values are words, and it executes a statement just if the statement
has an effect on the machine.
-/

namespace X64Backend.Select

open Asm Code Machine Meaning List

/-- The symbols of an expression. -/
def symbols : Expr → List Name
  | .name n => [n]
  | .mem a => symbols a
  | .binary _ l r => symbols l ++ symbols r
  | .const _ | .temp _ | .absent => []

/-- The symbols of a statement. -/
def stmtSymbols : Stmt Expr → List Name
  | .move _ src => symbols src
  | .store a src => symbols a ++ symbols src
  | .call f args _ => symbols f ++ args.flatMap symbols
  | .branch cond _ => symbols cond
  | .ret value => (value.map symbols).getD []
  | .jump _ | .label _ | .absent => []

/-- Evaluation beside the machine: temporaries are the words in their registers, symbols are
the program's globals, and memory is the machine's. -/
structure Mirrors (img : Image) (ctx : Context) (c : Meaning.Config) (s : State) : Prop where
  limit : ctx.scope.limit = stackTop
  globals (n : Name) : ctx.scope.globals n = img.globals[n]?
  noFunc (n : Name) : ctx.scope.isFunc n = false
  temps {t : Name} (ht : UserName t) : c.frame.temps t = some (.word (s.get (.ofName t)))
  memory : c.world.memory = s.memory
  heap : c.world.heap = s.heap
  output : c.world.output = s.output

namespace Mirrors

variable {img : Image} {ctx : Context} {c : Meaning.Config} {s : State}

variable (h : Mirrors img ctx c s)

include h

theorem reads :
    (plainSetting img).Reads ctx.scope c.frame.temps c.world.memory s where
  limit := h.limit
  globals {n a} ha := by
    rw [h.globals] at ha
    simp only [Image.constValue, plainSetting, ha]
  funcs {n} _ hfunc := by
    rw [h.noFunc] at hfunc
    cases hfunc
  temps {t v} hv ht := by
    rw [h.temps ht] at hv
    cases hv
    rfl
  memory _ := by rw [h.memory]

/-- An expression that has a word has the value of it. -/
theorem eval_of_value {e : Expr} (he : WellNamed e)
    (hbound : ∀ n ∈ symbols e, ∃ a, img.globals[n]? = some a) {w : Int64}
    (hw : (plainSetting img).value s e = some w) :
    eval ctx.scope c.frame.temps c.world.memory e = .ok (.word w) := by
  induction e generalizing w with
  | const v =>
    cases hw
    rfl
  | name n =>
    obtain ⟨a, ha⟩ := hbound n (by simp [symbols])
    have hconst : img.constValue (.sym n) = .ok w := toOption_eq_some.mp hw
    simp only [Image.constValue, ha] at hconst
    cases hconst
    simp only [eval, Scope.name, h.globals, ha]
  | temp t =>
    cases hw
    simp only [eval, h.temps he]
  | mem a ih =>
    obtain ⟨address, ha, hload⟩ := Option.bind_eq_some_iff.mp hw
    have hcheck := h.reads.checkAddress_eq_ok.mpr ⟨w, hload⟩
    obtain ⟨_, _, hread⟩ := Setting.load?_eq_some.mp hload
    simp only [eval, ih he hbound ha, bind_eq_ok, pure_eq_ok]
    refine ⟨_, rfl, address, rfl, (), hcheck, ?_⟩
    rw [h.memory, hread]
  | binary op l r ihl ihr =>
    obtain ⟨a, ha, hw⟩ := Option.bind_eq_some_iff.mp hw
    obtain ⟨b, hb, hw⟩ := Option.bind_eq_some_iff.mp hw
    have hl := ihl he.1 (fun n hn => hbound n (mem_append_left _ hn)) ha
    have hr := ihr he.2 (fun n hn => hbound n (mem_append_right _ hn)) hb
    simp only [eval, hl, hr, bind_eq_ok, pure_eq_ok]
    exact ⟨_, rfl, a, rfl, _, rfl, b, rfl, w, toOption_eq_some.mp hw, rfl⟩
  | absent => cases hw

/-- A statement that has an effect is executed by evaluation. -/
theorem exec_of_effect {stmt : Stmt Expr} (hnamed : StmtNamed stmt)
    (hbound : ∀ n ∈ stmtSymbols stmt, ∃ a, img.globals[n]? = some a)
    (htargets : ∀ l ∈ stmtTargets stmt, ∃ p, labelPosition? c.frame.func.body l = some p)
    (func : Name) {x : Effect} (hx : (plainSetting img).effect func s stmt = some x) :
    ∃ p, exec ctx c stmt = .ok p := by
  -- Jumps find their labels.
  have hgoto (l : Name) (hl : l ∈ stmtTargets stmt) : ∃ c', c.goto l = .ok c' := by
    obtain ⟨p, hp⟩ := htargets l hl
    exact ⟨{ c with frame := { c.frame with position := p } },
      by simp only [Meaning.Config.goto, hp]⟩
  cases stmt with
  | move dest src =>
    obtain ⟨v, hv, _⟩ := Option.bind_eq_some_iff.mp hx
    have heval := h.eval_of_value hnamed.2 hbound hv
    exact ⟨_, by simp only [exec, heval]; rfl⟩
  | store a src =>
    obtain ⟨address, ha, hx⟩ := Option.bind_eq_some_iff.mp hx
    obtain ⟨v, hv, hx⟩ := Option.bind_eq_some_iff.mp hx
    obtain ⟨u, hu, _⟩ := Option.bind_eq_some_iff.mp hx
    have hevala := h.eval_of_value hnamed.1 (fun n hn => hbound n (mem_append_left _ hn)) ha
    have hevalv := h.eval_of_value hnamed.2 (fun n hn => hbound n (mem_append_right _ hn)) hv
    have hcheck := h.reads.checkAddress_eq_ok.mpr ⟨u, hu⟩
    simp only [exec, hevala, hevalv, bind_eq_ok, pure_eq_ok]
    exact ⟨_, _, rfl, address, rfl, _, rfl, v, rfl, (), hcheck, rfl⟩
  | call f args result | absent => cases hx
  | jump l =>
    obtain ⟨c', hc'⟩ := hgoto l (by simp [stmtTargets])
    exact ⟨_, by simp only [exec, hc']; rfl⟩
  | label l => exact ⟨_, rfl⟩
  | branch cond l =>
    obtain ⟨v, hv, _⟩ := Option.bind_eq_some_iff.mp hx
    have heval := h.eval_of_value hnamed hbound hv
    obtain ⟨c', hc'⟩ := hgoto l (by simp [stmtTargets])
    have hexec : exec ctx c (.branch cond l) =
        if v = 0 then .ok (.running c.advance) else .ok (.running c') := by
      simp only [exec, heval, hc']
      rfl
    by_cases hzero : v = 0
    · exact ⟨_, by rw [hexec, if_pos hzero]⟩
    · exact ⟨_, by rw [hexec, if_neg hzero]⟩
  | ret value =>
    cases value with
    | none => exact ⟨_, rfl⟩
    | some e =>
      obtain ⟨v, hv, _⟩ := Option.bind_eq_some_iff.mp hx
      have heval := h.eval_of_value hnamed hbound hv
      exact ⟨_, by simp only [exec, heval]; rfl⟩

/-- Values are words, for there are no functions. -/
theorem word_of_eval {e : Expr} (he : WellNamed e) {v : Value}
    (hv : eval ctx.scope c.frame.temps c.world.memory e = .ok v) : ∃ w, v = .word w := by
  cases e with
  | const u =>
    cases hv
    exact ⟨u, rfl⟩
  | name n =>
    grind [eval, Scope.name, h.noFunc]
  | temp t =>
    simp only [eval, h.temps he] at hv
    cases hv
    exact ⟨_, rfl⟩
  | mem a =>
    grind [eval, bind_eq_ok, pure_eq_ok]
  | binary op l r =>
    simp only [eval, bind_eq_ok, pure_eq_ok] at hv
    obtain ⟨_, _, _, _, _, _, _, _, _, _, rfl⟩ := hv
    exact ⟨_, rfl⟩
  | absent => cases hv

/-- Temporaries stay words. -/
theorem word_of_exec (hwaiting : c.waiting = []) {stmt : Stmt Expr}
    (hnamed : StmtNamed stmt)
    (hcall : ∀ f args result, stmt ≠ .call f args result) {c' : Meaning.Config}
    (hc' : exec ctx c stmt = .ok (.running c')) {t : Name} (ht : UserName t) :
    ∃ w, c'.frame.temps t = some (.word w) := by
  have hkeep (htemps : c'.frame.temps = c.frame.temps) :
      ∃ w, c'.frame.temps t = some (.word w) := by
    rw [htemps, h.temps ht]
    exact ⟨_, rfl⟩
  cases stmt with
  | move dest src =>
    simp only [exec, bind_eq_ok, pure_eq_ok] at hc'
    obtain ⟨v, hv, hc'⟩ := hc'
    cases hc'
    obtain ⟨w, rfl⟩ := h.word_of_eval hnamed.2 hv
    -- Only a move changes a temporary, and what it assigns is a word.
    by_cases heq : t = dest
    · exact ⟨w, by simp [Meaning.Config.assign, Temps.set, heq]⟩
    · exact ⟨_, by simpa [Meaning.Config.assign, Meaning.Config.advance, Temps.set, heq]
        using h.temps ht⟩
  | store a src =>
    simp only [exec, bind_eq_ok, pure_eq_ok] at hc'
    obtain ⟨_, _, _, _, _, _, _, _, _, _, hc'⟩ := hc'
    cases hc'
    exact hkeep rfl
  | call f args result => exact absurd rfl (hcall f args result)
  | jump l =>
    simp only [exec, bind_eq_ok, pure_eq_ok] at hc'
    obtain ⟨c'', hgoto, hc'⟩ := hc'
    cases hc'
    exact hkeep (Continues.of_goto hgoto).2.1
  | label l =>
    simp only [exec, pure_eq_ok] at hc'
    cases hc'
    exact hkeep rfl
  | branch cond l =>
    simp only [exec, bind_eq_ok] at hc'
    obtain ⟨_, _, _, _, hc'⟩ := hc'
    split at hc'
    · cases hc'
      exact hkeep rfl
    · simp only [bind_eq_ok, pure_eq_ok] at hc'
      obtain ⟨c'', hgoto, hc'⟩ := hc'
      cases hc'
      exact hkeep (Continues.of_goto hgoto).2.1
  | ret value =>
    cases value with
    | none => simp [exec, pure_eq_ok, Meaning.Config.leave, hwaiting] at hc'
    | some e =>
      grind [exec, bind_eq_ok, pure_eq_ok, Meaning.Config.leave]
  | absent => cases hc'

/-- Evaluation goes on beside the state that a statement's effect leaves. -/
theorem of_leaves {c' : Meaning.Config} {x : Effect} {s' : State}
    (hx : x.Leaves s s') (hcontinues : Continues c c' x.exit) (hmemory : c'.world.memory = x.memory)
    (hreads : (plainSetting img).Reads ctx.scope c'.frame.temps c'.world.memory s')
    (hwords : ∀ {t}, UserName t → ∃ w, c'.frame.temps t = some (.word w)) :
    Mirrors img ctx c' s' where
  limit := h.limit
  globals := h.globals
  noFunc := h.noFunc
  temps {t} ht := by
    obtain ⟨w, hw⟩ := hwords ht
    have hfits : w = s'.get (.ofName t) := hreads.temps hw ht
    rw [hw, hfits]
  memory := by rw [hmemory, hx.memory]
  heap := by rw [hcontinues.heap, hx.heap, h.heap]
  output := by rw [hcontinues.output, hx.output, h.output]

omit h

end Mirrors

end X64Backend.Select
