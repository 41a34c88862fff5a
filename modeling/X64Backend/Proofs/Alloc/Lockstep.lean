import X64Backend.Proofs.Alloc.Tracking
import X64Backend.Proofs.Dataflow.Jobs

/-! # Colours in lock step

Code over colours is run beside the code itself, from one state and with the same calls.
After any number of steps both stand at one position or have stopped with one trap, and
their states differ in registers only. The colour of a register that is live there holds the
register's word.

A call is any function of its target, the registers that pass arguments, the stack pointer,
memory, the heap and the output. It sets all registers that a call may change.
-/

namespace X64Backend.Machine

open Asm

/-! ## Calls from outside -/

/-- What a callee sees. -/
structure Sight where
  arguments : List Int64
  rsp : Int64
  memory : Int64 → Int64
  heap : Int64
  output : Array UInt8

/-- What a callee leaves: words for the registers that a call may change, everything else that
execution changes, and the trap that stopped it if one did. -/
structure Reply where
  words : MachineReg → Int64
  memory : Memory
  left : Int64
  right : Int64
  heap : Int64
  output : Array UInt8
  trap : Option Trap

/-- What calls do. -/
abbrev Environment := Callee → Sight → Reply

namespace State

/-- What a state shows to a callee. -/
def sight (s : State) : Sight where
  arguments := MachineReg.arguments.map fun r => s.get (.machine r)
  rsp := s.get .rsp
  memory := s.memory.read
  heap := s.heap
  output := s.output

/-- The state with words in the registers of a list. -/
def setAll (s : State) (rs : List MachineReg) (words : MachineReg → Int64) : State :=
  rs.foldl (fun s r => s.set (.machine r) (words r)) s

/-- The state that a callee leaves. -/
def absorb (s : State) (reply : Reply) : State :=
  { s.setAll MachineReg.callerSaved reply.words with
    memory := reply.memory, left := reply.left, right := reply.right, heap := reply.heap,
    output := reply.output }

/-- The state without its registers. -/
def bare (s : State) : State := { s with regs := .zero }

@[simp] theorem bare_set (s : State) (r : Reg) (v : Int64) : (s.set r v).bare = s.bare := rfl

@[simp] theorem bare_setAll (s : State) (rs : List MachineReg) (words : MachineReg → Int64) :
    (s.setAll rs words).bare = s.bare := by
  induction rs generalizing s with
  | nil => rfl
  | cons r rs ih => exact (ih _).trans (bare_set s _ _)

theorem get_setAll_of_notMem {s : State} {rs : List MachineReg} {words : MachineReg → Int64}
    {q : Reg} (h : ∀ r ∈ rs, q ≠ .machine r) : (s.setAll rs words).get q = s.get q := by
  induction rs generalizing s with
  | nil => rfl
  | cons r rs ih =>
    obtain ⟨hr, hrs⟩ := List.forall_mem_cons.mp h
    exact (ih hrs).trans (get_set_of_ne s _ hr.symm)

theorem get_setAll_of_mem {s : State} {rs : List MachineReg} {words : MachineReg → Int64}
    {q : MachineReg} (h : q ∈ rs) : (s.setAll rs words).get (.machine q) = words q := by
  induction rs generalizing s with
  | nil => cases h
  | cons r rs ih =>
    by_cases hq : q ∈ rs
    · exact ih hq
    · obtain rfl := (List.mem_cons.mp h).resolve_right hq
      have hne : ∀ r ∈ rs, Reg.machine q ≠ .machine r := by
        rintro r hr heq
        exact hq (Reg.machine.inj heq ▸ hr)
      exact (get_setAll_of_notMem hne).trans (get_set_self s _ _)

@[simp] theorem ip_absorb (s : State) (reply : Reply) : (s.absorb reply).ip = s.ip := by
  show (s.setAll MachineReg.callerSaved reply.words).bare.ip = s.bare.ip
  rw [bare_setAll]

theorem bare_absorb (s : State) (reply : Reply) : (s.absorb reply).bare =
    { s.bare with
      memory := reply.memory, left := reply.left, right := reply.right, heap := reply.heap,
      output := reply.output } := by
  rw [← bare_setAll s MachineReg.callerSaved reply.words]
  rfl

end State

/-- An outcome without registers. -/
def Outcome.bare : Outcome → Outcome
  | .ok s => .ok s.bare
  | .error (t, s) => .error (t, s.bare)

/-- The outcome of a call with a reply. -/
def State.receive (s : State) (reply : Reply) : Outcome :=
  match reply.trap with
  | none => .ok (s.absorb reply)
  | some t => .error (t, s.absorb reply)

/-- A call. -/
def Environment.call (env : Environment) (c : Callee) (s : State) : Outcome :=
  s.receive (env c s.sight)

/-- The outcome of an instruction. -/
def Image.move (img : Image) (env : Environment) (s : State) : Instr → Outcome
  | .call a => Outcome.use s.advance (img.callee s.advance a) fun c => env.call c s.advance
  | x => img.exec s.advance x

/-- A number of steps, or fewer if a trap or the end of the code comes before. -/
def Image.go (img : Image) (env : Environment) : Nat → State → Outcome
  | 0, s => .ok s
  | n + 1, s =>
    match img.code[s.ip.toNat]? with
    | some x => do img.go env n (← img.move env s x)
    | none => .ok s

/-- Calls of an environment have the outcome that it gives. -/
def Environment.calls (env : Environment) : Calls := fun c s o => o = env.call c s

theorem Image.moves_iff {img : Image} {env : Environment} {s : State} {x : Instr} {o : Outcome} :
    img.Moves env.calls s x o ↔ o = img.move env s x := by
  cases x with
  | call a =>
    simp only [Image.Moves, Image.move, Outcome.use]
    cases img.callee s.advance a <;> rfl
  | _ => exact Iff.rfl

section

variable {env : Environment} {s t : State} {c : Callee}

theorem eq_absorb_of_call {s' : State} (h : .ok s' = env.call c s) :
    s' = s.absorb (env c s.sight) := by
  unfold Environment.call State.receive at h
  split at h
  · exact Except.ok.inj h
  · cases h

theorem Alike.sight_eq (h : Alike (fun _ => False) s t) : t.sight = s.sight := by
  have hargs : MachineReg.arguments.map (fun r => t.get (.machine r)) =
      MachineReg.arguments.map fun r => s.get (.machine r) :=
    List.map_congr_left fun r hr => (h.arguments r hr).symm
  have hread : t.memory.read = s.memory.read := funext fun a => (h.world.memory a id).symm
  simp only [State.sight, hargs, hread, h.rsp, h.world.heap, h.world.output]

theorem Environment.regular (env : Environment) : env.calls.Regular fun _ => False where
  same {c s t o} h ho := by
    refine ⟨env.call c s, rfl, ?_⟩
    rw [ho, Environment.call, Environment.call, h.sight_eq, State.receive, State.receive]
    cases (env c s.sight).trap with
    | none =>
      refine .ok (.of_eq rfl rfl rfl) rfl rfl ?_
      intro r hr
      exact (State.get_setAll_of_mem hr).trans (State.get_setAll_of_mem hr).symm
    | some e => exact .error rfl (.of_eq rfl rfl rfl)
  ip h := by
    rw [eq_absorb_of_call h, State.ip_absorb]
  regs h r hr := by
    rw [eq_absorb_of_call h]
    exact State.get_setAll_of_notMem hr
  memory _ _ h := h.elim

end

/-! ## What happens outside registers -/

/-- Runs that fail with one trap, in states that differ in registers only. -/
def SameFailure : Ending → Ending → Prop
  | .failed e s, .failed e' t => e = e' ∧ t.bare = s.bare
  | _, _ => False

theorem memory_of_bare {s t : State} (h : t.bare = s.bare) : t.memory = s.memory :=
  (congrArg State.memory h :)

theorem steady_bare : Steady fun s t => t.bare = s.bare where
  regs h := h
  compare {_ _} h {l r} := congrArg (fun u : State => { u with left := l, right := r }) h

/-- States that differ in registers only go on to do so. -/
theorem Environment.worldly (env : Environment) :
    Worldly env.calls (fun _ => False) (fun s t => t.bare = s.bare) SameFailure where
  toSteady := steady_bare
  same h := .of_eq (memory_of_bare h).symm (congrArg State.heap h).symm (congrArg State.output h).symm
  write {s t} h {a v} := by
    rw [memory_of_bare h]
    exact congrArg (fun u : State => { u with memory := s.memory.write a v }) h
  go {_ _} h {i} := congrArg (fun u : State => { u with ip := i }) h
  advance h := congrArg (fun u : State => { u with ip := u.ip + 1, steps := u.steps + 1 }) h
  fails h := ⟨rfl, h⟩
  regular := env.regular
  replies {c s t o o'} h halike ho ho' _ := by
    have habsorb (reply : Reply) : (t.absorb reply).bare = (s.absorb reply).bare := by
      rw [State.bare_absorb, State.bare_absorb, h]
    rw [ho, ho', Environment.call, Environment.call, halike.sight_eq, State.receive, State.receive]
    cases (env c s.sight).trap with
    | none => exact .ok (habsorb _)
    | some e => exact .error ⟨rfl, habsorb _⟩

end X64Backend.Machine

namespace X64Backend.Alloc

open Asm Machine Dataflow

/-- Both runs stand at one position, and their states differ in registers only. The registers that
are tracked there hold the same words under their new names. -/
abbrev Beside (φ : Reg → Reg) (T : Nat → Reg → Prop) : State → State → Prop :=
  Locked fun j => Agree φ (T j) fun s t => t.bare = s.bare

namespace Recolors

variable {labels : LabelTable} {code code' : List Instr} {φ : Reg → Reg} {T : Nat → Reg → Prop}
  {i : Nat} {x y : Instr} {s t : State} {img img' : Image} {env : Environment}

/-- Popping the frame's base leaves related states. -/
theorem related_popRbp (h : Recolors labels code φ T)
    (hag : Agree φ (T i) (fun s t => t.bare = s.bare) s t) (hx : code[i]? = some .popRbp)
    (hs : s.ip = (i + 1 : Nat)) (ht : t.ip = (i + 1 : Nat)) :
    Outcome.Related (Beside φ T) SameFailure (img.exec s .popRbp) (img'.exec t .popRbp) := by
  have hrsp : t.get .rsp = s.get .rsp := by
    have hregs := hag.regs .rsp (h.rsp i)
    rwa [h.machine] at hregs
  simp only [Image.exec, State.pop, State.load, hrsp, memory_of_bare hag.world]
  cases State.checkAddress (s.get .rsp) with
  | error e => exact .error ⟨rfl, hag.world⟩
  | ok _ =>
    have hpair := h.agree_set_pair steady_bare hag hx rfl (fun _ _ => Instr.noConfusion)
      (s.get .rsp + 8) (s.memory.read (s.get .rsp))
    rw [h.machine, h.machine] at hpair
    exact .ok ⟨i + 1, hs, ht, hpair⟩

/-- One step of both codes. -/
theorem related_move (h : Recolors img.labels code φ T)
    (hag : Agree φ (T i) (fun s t => t.bare = s.bare) s t)
    (hconst : ∀ c, img'.constValue c = img.constValue c) (hlabels : img'.labels = img.labels)
    (hx : code[i]? = some x) (hs : s.ip = i) (ht : t.ip = i) (hret : x ≠ .ret)
    (htarget : ∀ c l, x = .jump c l → (img.labels[l]?).isSome = true) (hy : Becomes φ x y) :
    Outcome.Related (Beside φ T) SameFailure (img.move env s x) (img'.move env t y) := by
  by_cases hpop : x = .popRbp
  · subst hpop
    cases hy
    show Outcome.Related _ _ (img.exec s.advance .popRbp) (img'.exec t.advance .popRbp)
    refine h.related_popRbp (hag.advance env.worldly) hx ?_ ?_
    · rw [State.ip_advance, hs]
      rfl
    · rw [State.ip_advance, ht]
      rfl
  · have hown : isOwn x = true := by
      cases x with
      | ret => exact absurd rfl hret
      | popRbp => exact absurd rfl hpop
      | _ => rfl
    have hapart : Apart (fun _ => False) img s x := ⟨fun _ _ _ _ => id, fun _ => id⟩
    obtain ⟨o, ho, hrel⟩ := h.moves_related env.worldly hag hconst rfl hlabels hx hs ht hapart
      hown htarget hy (Image.moves_iff.mpr rfl)
    rwa [Image.moves_iff.mp ho] at hrel

/-- Any number of steps of both codes. -/
theorem related_go (h : Recolors img.labels code φ T) (hcode : img.code = code.toArray)
    (hcode' : img'.code = code'.toArray) (hlabels : img'.labels = img.labels)
    (hglobals : img'.globals = img.globals) (hbecomes : List.Forall₂ (Becomes φ) code code')
    (hret : .ret ∉ code) (htargets : ∀ c l, .jump c l ∈ code → (img.labels[l]?).isSome = true)
    (env : Environment) (n : Nat) (hbeside : Beside φ T s t) :
    Outcome.Related (Beside φ T) SameFailure (img.go env n s) (img'.go env n t) := by
  have hconst : ∀ c, img'.constValue c = img.constValue c := by
    intro c
    cases c with
    | imm v => rfl
    | sym n => simp only [Image.constValue, hlabels, hglobals]
  induction n generalizing s t with
  | zero => exact .ok hbeside
  | succ n ih =>
    obtain ⟨i, hs, ht, hag⟩ := hbeside
    have hsat : img.code[s.ip.toNat]? = code[i]? := by simp [hcode, hs]
    have htat : img'.code[t.ip.toNat]? = code'[i]? := by simp [hcode', ht]
    rw [Image.go, Image.go, hsat, htat]
    cases hx : code[i]? with
    | none =>
      have hnone : code'[i]? = none := by
        rw [List.getElem?_eq_none_iff] at hx ⊢
        rwa [← hbecomes.length_eq]
      rw [hnone]
      exact .ok ⟨i, hs, ht, hag⟩
    | some x =>
      obtain ⟨y, hy, hbecome⟩ := getElem?_of_forall₂ hbecomes hx
      rw [hy]
      show Outcome.Related _ _ (img.move env s x >>= img.go env n)
        (img'.move env t y >>= img'.go env n)
      have hmem := List.mem_of_getElem? hx
      have hrel : Outcome.Related (Beside φ T) SameFailure (img.move env s x) (img'.move env t y) :=
        h.related_move hag hconst hlabels hx hs ht (fun hx' => hret (hx' ▸ hmem))
          (fun c l hcl => htargets c l (hcl ▸ hmem)) hbecome
      generalize img.move env s x = o at hrel
      generalize img'.move env t y = o' at hrel
      cases hrel with
      | ok hbeside => exact ih hbeside
      | error hend => exact .error hend

end Recolors

/-! ## Code over colours -/

/-- The code with every register replaced by its colour. Copies of a register to itself become
comments. -/
def recolored (color : Name → MachineReg) (code : List Instr) : List Instr :=
  code.map fun x => Finish.withoutSelfCopy (x.mapRegs (colored color))

/-- Two runs are in step: their outcomes differ in registers only, and the colour of each
register that is live holds the register's word. -/
def InStep (live : Liveness) (color : Name → MachineReg) (o o' : Outcome) : Prop :=
  o'.bare = o.bare ∧ ∀ s t, o = .ok s → o' = .ok t → ∃ i : Nat, s.ip = i ∧
    ∀ r : Reg, r.Proper → live.LiveBefore i r → t.get (colored color r) = s.get r

/-- Code that needs no abstract register at its start keeps in step with itself under every
proper colouring, whatever its calls do. -/
theorem recolored_inStep {code : List Instr} {returns : Bool} (hpresent : .absent ∉ code)
    (hdefined : ∀ l ∈ targets code, l ∈ labels code) (hret : .ret ∉ code) (hnamed : Named code) :
    ∃ live, analyze code returns = .ok live ∧ ∀ color : Name → MachineReg,
      (∀ n, (Reg.abstract n).Proper → ¬ live.LiveBefore 0 (.abstract n)) →
      ProperColoring (interference code live) live.vars color →
      ∀ (globals : Std.TreeMap Name Int64) (env : Environment) (s : State) (n : Nat), s.ip = 0 →
        InStep live color ((imageOf globals code).go env n s)
          ((imageOf globals (recolored color code)).go env n s) := by
  obtain ⟨live, hlive⟩ := exists_analyze returns hpresent hdefined
  refine ⟨live, hlive, ?_⟩
  intro color hentry hcolor globals env s n hs
  have hsolves := analyze_solves hlive
  have hrecolors : Recolors (imageOf globals code).labels code (colored color)
      (Tracked live) := recolors_tracked hsolves hnamed hret hcolor
  have hbecomes : List.Forall₂ (Becomes (colored color)) code (recolored color code) := by
    rw [recolored, List.forall₂_map_right_iff]
    exact List.forall₂_same.mpr fun x _ => becomes_withoutSelfCopy _ x
  have htargets : ∀ c l, .jump c l ∈ code → ((labelTable code)[l]?).isSome = true := by
    intro c l hmem
    rw [labelTable_getElem?, isSome_position?]
    exact hdefined l (mem_targets.mpr ⟨c, hmem⟩)
  -- no colour takes part at the start
  have hstart : Agree (colored color) (Tracked live 0) (fun s t => t.bare = s.bare) s s := by
    refine ⟨?_, rfl, rfl, rfl⟩
    rintro r ⟨hproper, hr⟩
    cases r with
    | abstract m =>
      grind
    | _ => rfl
  have hcode' : (imageOf globals (recolored color code)).code =
      (recolored color code).toArray := rfl
  have hrelated := hrecolors.related_go rfl hcode' (labelTable_becomes hbecomes) rfl hbecomes hret
    htargets env n ⟨0, hs, hs, hstart⟩
  generalize (imageOf globals code).go env n s = o at hrelated
  generalize (imageOf globals (recolored color code)).go env n s = o' at hrelated
  cases hrelated with
  | error hend =>
    obtain ⟨rfl, hbare⟩ := hend
    exact ⟨congrArg (fun u => Except.error (_, u)) hbare, fun _ _ => nofun⟩
  | ok hbeside =>
    obtain ⟨i, hi, _, hag⟩ := hbeside
    refine ⟨congrArg Except.ok hag.world, ?_⟩
    rintro _ _ ⟨⟩ ⟨⟩
    exact ⟨i, hi, fun r hproper hr => hag.regs r ⟨hproper, .inl hr⟩⟩

/-- Sums up the numbers from an argument down to one, and calls a function on the way. -/
def countdown : List Instr := [
  .mov (.reg (.abstract "i")) (.reg (.machine .rdi)),
  .mov (.reg (.abstract "s")) (.imm 0),
  .label "loop",
  .cmp (.reg (.abstract "i")) (.imm 0),
  .jump .je "end",
  .mov (.reg (.machine .rdi)) (.reg (.abstract "i")),
  .call (.const (.sym "show")),
  .arith .add (.reg (.abstract "s")) (.reg (.abstract "i")),
  .arith .sub (.reg (.abstract "i")) (.imm 1),
  .jump .jmp "loop",
  .label "end",
  .mov (.reg .rax) (.reg (.abstract "s"))]

/-- A colouring of its registers. -/
def countdownColor (n : Name) : MachineReg := if n = "i" then .rbx else .r12

/-- Calls that append their first argument to the output and clear registers. -/
def echo : Environment := fun _ sight =>
  { words := fun _ => 0, memory := .empty, left := 0, right := 0, heap := sight.heap,
    output := sight.output ++ (sight.arguments.take 1).toArray.map (·.toUInt64.toUInt8),
    trap := none }

/-- A state at the start of code, with an argument. -/
def countdownStart : State :=
  { regs := Registers.zero.set (.machine .rdi) 3, memory := .empty, left := 0, right := 0,
    heap := 0, ip := 0, steps := 0, output := #[] }

theorem countdown_inStep : ∃ live, analyze countdown true = .ok live ∧
    (∀ n, (Reg.abstract n).Proper → ¬ live.LiveBefore 0 (.abstract n)) ∧
    ProperColoring (interference countdown live) live.vars countdownColor ∧
    InStep live countdownColor ((imageOf ∅ countdown).go echo 25 countdownStart)
      ((imageOf ∅ (recolored countdownColor countdown)).go echo 25 countdownStart) := by
  have hnamed : Named countdown := by decide
  obtain ⟨live, hlive, hstep⟩ := @recolored_inStep countdown true (by decide) (by decide)
    (by decide) hnamed
  have hsolves := analyze_solves hlive
  have hgraph : (match analyze countdown true with
      | .ok live => (live.before.getD 0 .empty).toList.all (fun k =>
            (live.vars.regs[k]?).all Reg.isMachine) &&
          (List.range live.vars.size).all fun a =>
            ((interference countdown live).edges.getD a .empty).toList.all fun b =>
              live.vars.regs[a]?.map (colored countdownColor) !=
                live.vars.regs[b]?.map (colored countdownColor)
      | .error _ => false) = true := by
    decide +kernel
  rw [hlive] at hgraph
  obtain ⟨hbefore, hedges⟩ := Bool.and_eq_true_iff.mp hgraph
  have hentry : ∀ n, (Reg.abstract n).Proper → ¬ live.LiveBefore 0 (.abstract n) := by
    rintro n hproper ⟨k, hk, hkey⟩
    have hmachine := List.all_eq_true.mp hbefore k ((KeySet.mem_toList _ k).mpr hkey)
    rw [getElem?_of_id? hsolves hnamed hproper hk] at hmachine
    cases hmachine
  have hcolor : ProperColoring (interference countdown live) live.vars countdownColor := by
    constructor
    · intro n
      unfold countdownColor
      split <;> decide
    · intro a b r q hb ha hq
      have hlt : a < live.vars.size := (Array.getElem?_eq_some_iff.mp ha).1
      have hrow := List.all_eq_true.mp hedges a (List.mem_range.mpr hlt)
      have hne := List.all_eq_true.mp hrow b ((KeySet.mem_toList _ b).mpr hb)
      rw [ha, hq] at hne
      simpa using hne
  exact ⟨live, hlive, hentry, hcolor, hstep _ hentry hcolor ∅ echo countdownStart 25 rfl⟩

end X64Backend.Alloc
