import X64Backend.Proofs.Machine.Calls

/-! # Instructions that do the same

Two instructions of one form, executed in two states, do the same if their operands have
the same values and what they write keeps the states related. Words in a given part of
memory may differ, and of a trap at the end of a run only the kind counts.
-/

namespace X64Backend.Machine

open Asm

/-- Memory outside a part of it, the heap and the output are the same. -/
structure SameWorld (Z : Int64 → Prop) (s t : State) : Prop where
  memory : ∀ a, ¬ Z a → s.memory.read a = t.memory.read a
  heap : s.heap = t.heap
  output : s.output = t.output

/-- Two ends are alike: both finished with the same words in some registers, or both failed
with traps of one kind. -/
def SameEnd (Z : Int64 → Prop) (shared : Reg → Prop) : Ending → Ending → Prop
  | .finished s, .finished t => SameWorld Z s t ∧ ∀ r, shared r → s.get r = t.get r
  | .failed e s, .failed e' t => e.kind = e'.kind ∧ SameWorld Z s t
  | _, _ => False

/-- Two results of writing a word correspond. -/
inductive Lands (R : State → State → Prop) : Except Trap State → Except Trap State → Prop
  | ok {s t : State} (h : R s t) : Lands R (.ok s) (.ok t)
  | error (e : Trap) : Lands R (.error e) (.error e)

section

variable {Z : Int64 → Prop} {shared : Reg → Prop} {s t u : State}

theorem SameWorld.refl (s : State) : SameWorld Z s s := ⟨fun _ _ => rfl, rfl, rfl⟩

theorem SameWorld.trans (h : SameWorld Z s t) (h' : SameWorld Z t u) : SameWorld Z s u :=
  ⟨fun a ha => (h.memory a ha).trans (h'.memory a ha), h.heap.trans h'.heap,
    h.output.trans h'.output⟩

theorem SameWorld.of_eq (hm : s.memory = t.memory) (hh : s.heap = t.heap)
    (ho : s.output = t.output) : SameWorld Z s t :=
  ⟨fun _ _ => by rw [hm], hh, ho⟩

/-- Words written at one address, the same on both sides. -/
theorem SameWorld.write (h : SameWorld Z s t) (a v : Int64) :
    SameWorld Z { s with memory := s.memory.write a v } { t with memory := t.memory.write a v } := by
  refine ⟨?_, h.heap, h.output⟩
  intro b hb
  rw [Memory.read_write, Memory.read_write, h.memory b hb]

theorem SameEnd.refl (e : Ending) : SameEnd Z shared e e := by
  cases e with
  | finished s => exact ⟨.refl s, fun _ _ => rfl⟩
  | failed t s => exact ⟨rfl, .refl s⟩

theorem SameEnd.mono {shared' : Reg → Prop} {e e' : Ending} (h : SameEnd Z shared e e')
    (hshared : ∀ r, shared' r → shared r) : SameEnd Z shared' e e' := by
  cases e with
  | finished s =>
    cases e' with
    | finished t => exact ⟨h.1, fun r hr => h.2 r (hshared r hr)⟩
    | failed _ _ => exact h.elim
  | failed t s =>
    cases e' with
    | finished _ => exact h.elim
    | failed _ _ => exact h

theorem SameEnd.trans {e e' e'' : Ending} (h : SameEnd Z shared e e')
    (h' : SameEnd Z shared e' e'') : SameEnd Z shared e e'' := by
  cases e with
  | finished s =>
    cases e' with
    | finished t =>
      cases e'' with
      | finished u =>
        exact ⟨h.1.trans h'.1, fun r hr => (h.2 r hr).trans (h'.2 r hr)⟩
      | failed _ _ => exact h'.elim
    | failed _ _ => exact h.elim
  | failed t s =>
    cases e' with
    | finished _ => exact h.elim
    | failed _ _ =>
      cases e'' with
      | finished _ => exact h'.elim
      | failed _ _ => exact ⟨h.1.trans h'.1, h.2.trans h'.2⟩

end

/-- Two instructions of one form do the same in two states, and what they write leaves the
states related. -/
inductive Matches (img img' : Image) (s t : State) (R : State → State → Prop) :
    Instr → Instr → Prop
  | movAbs {d e : Reg} {v : Int64} (hw : R (s.set d v) (t.set e v)) :
      Matches img img' s t R (.movAbs d v) (.movAbs e v)
  | mov {d e a b : Operand} (ha : img.value s a = img'.value t b)
      (hw : ∀ v, img.value s a = .ok v → Lands R (img.assign s d v) (img'.assign t e v)) :
      Matches img img' s t R (.mov d a) (.mov e b)
  | lea {d e : Reg} {m n : Mem} (hm : img.address s m = img'.address t n)
      (hw : ∀ a, R (s.set d a) (t.set e a)) : Matches img img' s t R (.lea d m) (.lea e n)
  | cmp {a b c d : Operand} (hl : img.value s a = img'.value t b)
      (hr : img.value s c = img'.value t d)
      (hw : ∀ l r, R { s with left := l, right := r } { t with left := l, right := r }) :
      Matches img img' s t R (.cmp a c) (.cmp b d)
  | set {c : Cond} {d e : Reg} (h0 : R (s.set d 0) (t.set e 0))
      (h1 : R ((s.set d 0).set d 1) ((t.set e 0).set e 1)) :
      Matches img img' s t R (.set c d) (.set c e)
  | jump {c : Cond} {l : Name} {i j : Nat} (hi : img.labels[l]? = some i)
      (hj : img'.labels[l]? = some j) (hstay : c.isConditional = true → R s t)
      (hgo : R { s with ip := i } { t with ip := j }) :
      Matches img img' s t R (.jump c l) (.jump c l)
  | arith {op : Arith} {d e a b : Operand} (hd : img.value s d = img'.value t e)
      (ha : img.value s a = img'.value t b)
      (hw : ∀ v, Lands R (img.assign s d v) (img'.assign t e v)) :
      Matches img img' s t R (.arith op d a) (.arith op e b)
  | imul {d e : Reg} {a b : Operand} (hd : s.get d = t.get e)
      (ha : img.value s a = img'.value t b) (hw : ∀ v, R (s.set d v) (t.set e v)) :
      Matches img img' s t R (.imul d a) (.imul e b)
  | imul3 {d e : Reg} {a b : Operand} {k : Int64} (ha : img.value s a = img'.value t b)
      (hw : ∀ v, R (s.set d v) (t.set e v)) :
      Matches img img' s t R (.imul3 d a k) (.imul3 e b k)
  | cqo (hrax : s.get .rax = t.get .rax) (hw : ∀ v, R (s.set .rdx v) (t.set .rdx v)) :
      Matches img img' s t R .cqo .cqo
  | idiv {a b : Operand} (ha : img.value s a = img'.value t b)
      (hrax : s.get .rax = t.get .rax)
      (hw : ∀ q r, R ((s.set .rax q).set .rdx r) ((t.set .rax q).set .rdx r)) :
      Matches img img' s t R (.idiv a) (.idiv b)
  | neg {d e : Operand} (hd : img.value s d = img'.value t e)
      (hw : ∀ v, Lands R (img.assign s d v) (img'.assign t e v)) :
      Matches img img' s t R (.neg d) (.neg e)
  | shl {d e : Operand} {k : Int64} (hd : img.value s d = img'.value t e)
      (hw : ∀ v, Lands R (img.assign s d v) (img'.assign t e v)) :
      Matches img img' s t R (.shl d k) (.shl e k)
  | push {a b : Operand} (ha : img.value s a = img'.value t b)
      (hrsp : s.get .rsp = t.get .rsp)
      (hw : ∀ v, R { s.set .rsp (s.get .rsp - 8) with memory := s.memory.write (s.get .rsp - 8) v }
        { t.set .rsp (s.get .rsp - 8) with memory := t.memory.write (s.get .rsp - 8) v }) :
      Matches img img' s t R (.push a) (.push b)
  | label {l : Name} (hw : R s t) : Matches img img' s t R (.label l) (.label l)
  | comment {a b : Bytes} (hw : R s t) : Matches img img' s t R (.comment a) (.comment b)
  | absent : Matches img img' s t R .absent .absent

/-- A relation of states that has nothing to do with registers, and holds on when words are
compared. -/
structure Steady (W : State → State → Prop) : Prop where
  regs {s t : State} (h : W s t) {ρ ρ' : Registers} : W { s with regs := ρ } { t with regs := ρ' }
  compare {s t : State} (h : W s t) {l r : Int64} :
    W { s with left := l, right := r } { t with left := l, right := r }

theorem steady_sameWorld (Z : Int64 → Prop) : Steady (SameWorld Z) where
  regs h := ⟨h.memory, h.heap, h.output⟩
  compare h := ⟨h.memory, h.heap, h.output⟩

section

variable {img img' : Image} {E : Ending → Ending → Prop} {W : State → State → Prop} {s t : State}
  {R : State → State → Prop} {x y : Instr} {o o' : Outcome}

theorem Lands.orElse {a b : Except Trap State} (h : Lands R a b)
    (hE : ∀ e, E (.failed e s) (.failed e t)) :
    Outcome.Related R E (Outcome.orElse s a) (Outcome.orElse t b) := by
  cases h with
  | ok h => exact .ok h
  | error e => exact .error (hE e)

theorem Outcome.Related.use {α : Type} {a b : Except Trap α} {f g : α → Outcome} (h : a = b)
    (hE : ∀ e, E (.failed e s) (.failed e t))
    (hf : ∀ v, a = .ok v → Outcome.Related R E (f v) (g v)) :
    Outcome.Related R E (Outcome.use s a f) (Outcome.use t b g) := by
  subst h
  cases a with
  | ok v => exact hf v rfl
  | error e => exact .error (hE e)

theorem Image.update_related {d e a b : Operand} {f : Int64 → Int64 → Option Int64}
    (hd : img.value s d = img'.value t e) (ha : img.value s a = img'.value t b)
    (hE : ∀ e, E (.failed e s) (.failed e t))
    (hw : ∀ v, Lands R (img.assign s d v) (img'.assign t e v)) :
    Outcome.Related R E (img.update s d a f) (img'.update t e b f) := by
  refine .use hd hE fun v _ => .use ha hE fun w _ => ?_
  cases f v w with
  | none => exact .error (hE _)
  | some r => exact (hw r).orElse hE

/-- Instructions that match have outcomes that correspond. -/
theorem Matches.exec (h : Matches img img' s t R x y) (hW : Steady W)
    (hE : ∀ {e s t}, W s t → E (.failed e s) (.failed e t)) (hworld : W s t)
    (hleft : s.left = t.left) (hright : s.right = t.right) :
    Outcome.Related R E (img.exec s x) (img'.exec t y) := by
  have hfails : ∀ e, E (.failed e s) (.failed e t) := fun _ => hE hworld
  cases h with
  | movAbs hw => exact .ok hw
  | mov ha hw => exact .use ha hfails fun v hv => (hw v hv).orElse hfails
  | lea hm hw => exact .use hm hfails fun a _ => .ok (hw a)
  | cmp hl hr hw =>
    refine .use hl (fun _ => ?_) fun a _ => .use hr (fun _ => hE (hW.compare hworld)) fun b _ => ?_
    · show E (.failed _ { s with left := 0, right := s.right })
        (.failed _ { t with left := 0, right := t.right })
      rw [← hright]
      exact hE (hW.compare hworld)
    · exact .ok (hw a b)
  | @set c d e h0 h1 =>
    simp only [Image.exec, State.left_set, State.right_set, hleft, hright]
    cases c.holds t.left t.right with
    | error defect => exact .error (hE (hW.regs hworld))
    | ok b =>
      cases b with
      | true => exact .ok h1
      | false => exact .ok h0
  | @jump c l i j hi hj hstay hgo =>
    have hcond : c.holds s.left s.right = c.holds t.left t.right := by rw [hleft, hright]
    simp only [Image.exec, Image.goto, hcond, hi, hj]
    cases hholds : c.holds t.left t.right with
    | error defect => exact .error (hfails _)
    | ok b =>
      cases b with
      | true => exact .ok hgo
      | false =>
        refine .ok (hstay ?_)
        cases c with
        | jmp => cases hholds
        | _ => rfl
  | arith hd ha hw => exact Image.update_related hd ha hfails hw
  | @imul d e a b hd ha hw =>
    have hd' : img.value s (.reg d) = img'.value t (.reg e) := congrArg Except.ok hd
    rw [Image.exec, Image.exec]
    exact Image.update_related hd' ha hfails fun v => .ok (hw v)
  | imul3 ha hw => exact .use ha hfails fun v _ => .ok (hw _)
  | cqo hrax hw =>
    simp only [Image.exec, hrax]
    exact .ok (hw _)
  | idiv ha hrax hw =>
    refine .use ha hfails fun v _ => ?_
    simp only [hrax]
    split
    · exact .error (hfails _)
    · exact .ok (hw _ _)
  | neg hd hw =>
    rw [Image.exec, Image.exec]
    exact Image.update_related (b := .imm 0) hd rfl hfails hw
  | @shl d e k hd hw =>
    rw [Image.exec, Image.exec]
    exact Image.update_related (b := .imm k) hd rfl hfails hw
  | push ha hrsp hw =>
    refine .use ha hfails fun v _ => ?_
    simp only [State.push, State.store, State.get_set_self, State.memory_set, ← hrsp]
    cases hcheck : State.checkAddress (s.get .rsp - 8) with
    | error e => exact .error (hE (hW.regs hworld))
    | ok _ => exact .ok (hw v)
  | label hw => exact .ok hw
  | comment hw => exact .ok hw
  | absent => exact .error (hfails _)

end

/-- An instruction touches no word of a part of memory. -/
structure Apart (Z : Int64 → Prop) (img : Image) (s : State) (x : Instr) : Prop where
  words : ∀ m ∈ x.words, ∀ a, img.address s m = .ok a → ¬ Z a
  stack : usesStack x = true → ¬ Z (s.get .rsp - 8)

/-- The states look the same to a callee. -/
structure Alike (Z : Int64 → Prop) (s t : State) : Prop where
  world : SameWorld Z s t
  left : s.left = t.left
  right : s.right = t.right
  rsp : s.get .rsp = t.get .rsp
  rbp : s.get .rbp = t.get .rbp
  arguments : ∀ r ∈ MachineReg.arguments, s.get (.machine r) = t.get (.machine r)

/-- Calls from two states end in the same way. -/
inductive SameResult (Z : Int64 → Prop) : Outcome → Outcome → Prop
  | ok {s t : State} (hworld : SameWorld Z s t) (hleft : s.left = t.left)
      (hright : s.right = t.right)
      (hregs : ∀ r ∈ MachineReg.callerSaved, s.get (.machine r) = t.get (.machine r)) :
      SameResult Z (.ok s) (.ok t)
  | error {e e' : Trap} {s t : State} (hkind : e.kind = e'.kind) (hworld : SameWorld Z s t) :
      SameResult Z (.error (e, s)) (.error (e', t))

/-- Calls depend on what a callee may see, set the registers that a call may change, and keep
the other registers and a part of memory. -/
structure Calls.Regular (calls : Calls) (Z : Int64 → Prop) : Prop where
  same : ∀ {c s t o}, Alike Z s t → calls c t o → ∃ o', calls c s o' ∧ SameResult Z o' o
  ip : ∀ {c s s'}, calls c s (.ok s') → s'.ip = s.ip
  regs : ∀ {c s s'}, calls c s (.ok s') → ∀ r, (∀ q ∈ MachineReg.callerSaved, r ≠ .machine q) →
    s'.get r = s.get r
  memory : ∀ {c s s'}, calls c s (.ok s') → ∀ a, Z a → s'.memory.read a = s.memory.read a

section

variable {img img' : Image} {Z : Int64 → Prop} {s t : State} {R : State → State → Prop}

/-- Operands in memory at one address, outside the part that may differ. -/
theorem value_mem_eq {m n : Mem} (hm : img.address s m = img'.address t n)
    (hworld : SameWorld Z s t) (hZ : ∀ a, img.address s m = .ok a → ¬ Z a) :
    img.value s (.mem m) = img'.value t (.mem n) := by
  simp only [Image.value, ← hm]
  cases haddress : img.address s m with
  | error e => rfl
  | ok a =>
    show s.load a = t.load a
    rw [State.load, State.load, hworld.memory a (hZ a haddress)]

theorem Lands.assign_mem {m n : Mem} {v : Int64} (hm : img.address s m = img'.address t n)
    (hw : ∀ a, img.address s m = .ok a → R { s with memory := s.memory.write a v }
      { t with memory := t.memory.write a v }) :
    Lands R (img.assign s (.mem m) v) (img'.assign t (.mem n) v) := by
  simp only [Image.assign, ← hm]
  cases haddress : img.address s m with
  | error e => exact .error e
  | ok a =>
    show Lands R (s.store a v) (t.store a v)
    unfold State.store
    cases State.checkAddress a with
    | error e => exact .error e
    | ok _ => exact .ok (hw a haddress)

end

end X64Backend.Machine
