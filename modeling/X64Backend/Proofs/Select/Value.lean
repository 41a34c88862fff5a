import X64Backend.Meaning.Expr
import X64Backend.Proofs.Machine.Straight
import X64Backend.Proofs.Names
import X64Backend.Proofs.Select.Rules

/-! # The words that expressions stand for

What an expression is worth in a state of the machine in which temporaries are
registers. Selected code leaves the state as it is for every expression: it changes
only registers that were issued, each to the value of the expression it was issued for,
and the two registers that division and comparison work in.
-/

namespace X64Backend.Select

open Asm Code Machine

/-- A name that a temporary may have. -/
structure UserName (t : Name) : Prop where
  ne_nil : t ≠ []
  ofName_eq : Reg.ofName t = .abstract t
  not_issued : Reg.issuedMark.isPrefixOf t = false
  not_saved : Reg.savedMark.isPrefixOf t = false

/-- A name that no issued register, no machine register and no empty place has. -/
structure TempName (t : Name) : Prop where
  ne_nil : t ≠ []
  ofName_eq : Reg.ofName t = .abstract t
  not_issued : Reg.issuedMark.isPrefixOf t = false

theorem UserName.tempName {t : Name} (h : UserName t) : TempName t :=
  ⟨h.ne_nil, h.ofName_eq, h.not_issued⟩

theorem issuedMark_isPrefixOf (k : Nat) :
    Reg.issuedMark.isPrefixOf (Reg.issuedMark ++ Bytes.ofNat k) = true := by
  rw [List.isPrefixOf_iff_prefix]
  exact List.prefix_append _ _

theorem TempName.ofName_ne_issued {t : Name} (h : TempName t) (k : Nat) :
    Reg.ofName t ≠ .issued k := by
  rw [h.ofName_eq]
  intro heq
  have hname : t = Reg.issuedMark ++ Bytes.ofNat k := Reg.abstract.inj heq
  have hnot := h.not_issued
  rw [hname, issuedMark_isPrefixOf] at hnot
  cases hnot

theorem TempName.ofName_ne_machine {t : Name} (h : TempName t) (r : MachineReg) :
    Reg.ofName t ≠ .machine r := by
  rw [h.ofName_eq]
  exact fun heq => nomatch heq

/-- The temporaries of an expression have names they may have, and no symbol is without
a name. -/
def WellNamed : Expr → Prop
  | .const _ | .absent => True
  | .name n => n ≠ []
  | .temp t => UserName t
  | .mem a => WellNamed a
  | .binary _ l r => WellNamed l ∧ WellNamed r

/-- No temporary of an expression can be taken for another register, and no symbol is without a
name. -/
def TempNamed : Expr → Prop
  | .const _ | .absent => True
  | .name n => n ≠ []
  | .temp t => TempName t
  | .mem a => TempNamed a
  | .binary _ l r => TempNamed l ∧ TempNamed r

theorem WellNamed.tempNamed {e : Expr} (h : WellNamed e) : TempNamed e := by
  induction e with
  | const v | absent => trivial
  | name n => exact h
  | temp t => exact UserName.tempName h
  | mem a ih => exact ih h
  | binary op l r ihl ihr => exact ⟨ihl h.1, ihr h.2⟩

/-- Where selected code runs: the program, the limit below which memory is used, the words
that are not used even so, the side condition that steps are held to, and whether failures
matter. -/
structure Setting where
  img : Image
  limit : Int64
  hidden : Int64 → Bool := fun _ => false
  ok : State → Instr → Prop
  strict : Prop
  allows (s : State) (x : Instr) (hx : falls x = true) (hstack : usesStack x = false)
    (hwords : ∀ m ∈ x.words, ∀ a, img.address s m = .ok a → a < limit ∧ hidden a = false) : ok s x
  stackTop_le (h : strict) : stackTop ≤ limit
  not_hidden (h : strict) (a : Int64) : hidden a = false := by intros; rfl

/-- A word of memory that can be used below a limit. -/
def load? (limit : Int64) (m : Memory) (a : Int64) : Option Int64 :=
  match State.checkAddress a with
  | .ok () => if a < limit then some (m.read a) else none
  | .error _ => none

theorem load?_eq_some {limit a v : Int64} {m : Memory} : load? limit m a = some v ↔
    State.checkAddress a = .ok () ∧ a < limit ∧ m.read a = v := by
  unfold load?
  cases State.checkAddress a with
  | error t => simp
  | ok u =>
    cases u
    simp

/-- Below a limit that leaves nothing out, a word that is not there cannot be used. -/
theorem checkAddress_of_load?_eq_none {limit a : Int64} {m : Memory} (hlimit : stackTop ≤ limit)
    (h : load? limit m a = none) : ∃ t, State.checkAddress a = .error t := by
  cases hcheck : State.checkAddress a with
  | error t => exact ⟨t, rfl⟩
  | ok u =>
    cases u
    have hnot : ¬ a < limit := by
      intro hlt
      rw [load?, hcheck, if_pos hlt] at h
      cases h
    unfold State.checkAddress at hcheck
    split at hcheck
    · cases hcheck
    · grind

namespace Setting

variable (S : Setting)

/-- A word of memory that is used. -/
def load? (m : Memory) (a : Int64) : Option Int64 :=
  if S.hidden a then none else Select.load? S.limit m a

theorem load?_eq_some {S : Setting} {a v : Int64} {m : Memory} : S.load? m a = some v ↔
    State.checkAddress a = .ok () ∧ (a < S.limit ∧ S.hidden a = false) ∧ m.read a = v := by
  unfold load?
  cases S.hidden a with
  | true => simp
  | false => simp [Select.load?_eq_some]

/-- Where failures matter, a word that is not there cannot be used. -/
theorem checkAddress_of_load? {S : Setting} (hstrict : S.strict) {a : Int64} {m : Memory}
    (h : S.load? m a = none) : ∃ t, State.checkAddress a = .error t := by
  refine checkAddress_of_load?_eq_none (S.stackTop_le hstrict) (m := m) ?_
  rwa [load?, S.not_hidden hstrict] at h

/-- The word that an expression stands for in a state. -/
def value (s : State) : Expr → Option Int64
  | .const v => some v
  | .name n => (S.img.constValue (.sym n)).toOption
  | .temp t => some (s.get (.ofName t))
  | .mem a => do S.load? s.memory (← value s a)
  | .binary op l r => do
    let a ← value s l
    let b ← value s r
    (Meaning.evalOp op a b).toOption
  | .absent => none

/-- The word that an operand holds. -/
def operand? (s : State) : Operand → Option Int64
  | .reg r => some (s.get r)
  | .const c => (S.img.constValue c).toOption
  | .mem m => do S.load? s.memory (← (S.img.address s m).toOption)
  | .absent => none

end Setting

theorem toOption_eq_some {ε α : Type} {x : Except ε α} {a : α} :
    x.toOption = some a ↔ x = .ok a := by
  cases x <;> simp [Except.toOption]

theorem toOption_eq_none {ε α : Type} {x : Except ε α} :
    x.toOption = none ↔ ∃ e, x = .error e := by
  cases x <;> simp [Except.toOption]

section

variable {S : Setting} {s : State} {a : Operand} {v : Int64}

/-- An operand that holds a word is read, and its word of memory lies below the limit and is
not hidden. -/
theorem Setting.value_of_operand? (h : S.operand? s a = some v) : S.img.value s a = .ok v ∧
    ∀ m ∈ a.words, ∀ addr, S.img.address s m = .ok addr →
      addr < S.limit ∧ S.hidden addr = false := by
  cases a with
  | reg r =>
    cases h
    exact ⟨rfl, by simp [Operand.words]⟩
  | const c => exact ⟨toOption_eq_some.mp h, by simp [Operand.words]⟩
  | mem m =>
    obtain ⟨addr, haddr, hload⟩ := Option.bind_eq_some_iff.mp h
    obtain ⟨hcheck, hlt, hread⟩ := Setting.load?_eq_some.mp hload
    have haddr := toOption_eq_some.mp haddr
    refine ⟨value_mem_eq_ok.mpr ⟨addr, haddr, hcheck, hread⟩, ?_⟩
    intro m' hm' addr' haddr'
    obtain rfl := List.mem_singleton.mp hm'
    rw [haddr] at haddr'
    cases haddr'
    exact hlt
  | absent => cases h

/-- Where failures matter, an operand that holds no word fails to be read. -/
theorem Setting.value_of_operand?_eq_none (hstrict : S.strict) (h : S.operand? s a = none) :
    ∃ t, S.img.value s a = .error t := by
  cases a with
  | reg r => cases h
  | const c => exact toOption_eq_none.mp h
  | mem m =>
    cases haddr : S.img.address s m with
    | error t => exact ⟨t, by rw [Image.value, haddr]; rfl⟩
    | ok addr =>
      have hnone : S.load? s.memory addr = none := by
        simpa [Setting.operand?, haddr, Except.toOption] using h
      obtain ⟨t, ht⟩ := Setting.checkAddress_of_load? hstrict hnone
      refine ⟨t, ?_⟩
      rw [Image.value, haddr]
      show (State.checkAddress addr >>= _) = _
      rw [ht]
      rfl
  | absent => exact ⟨_, rfl⟩

end

/-- The state is as it was for expressions: registers changed are those that code works
in, and issued ones. An issued register holds the value of its expression, unless the
expression is one of those given free. -/
structure Setting.Keeps (S : Setting) (own : Owner) (free : Expr → Prop) (s s' : State) :
    Prop where
  memory : s'.memory = s.memory
  heap : s'.heap = s.heap
  output : s'.output = s.output
  regs (r : Reg) : s'.get r = s.get r ∨ r = .rax ∨ r = .rdx ∨
    ∃ k e, r = .issued k ∧ own k = some e ∧
      (free e ∨ TempNamed e ∧ S.value s e = some (s'.get r))

namespace Setting.Keeps

variable {S : Setting} {own : Owner} {free : Expr → Prop} {s s' s'' : State}

theorem get_user (h : S.Keeps own free s s') {t : Name} (ht : TempName t) :
    s'.get (.ofName t) = s.get (.ofName t) := by
  grind [h.regs, ht.ofName_ne_machine, ht.ofName_ne_issued]

theorem get_machine (h : S.Keeps own free s s') {r : MachineReg} (hrax : r ≠ .rax)
    (hrdx : r ≠ .rdx) : s'.get (.machine r) = s.get (.machine r) := by
  rcases h.regs (.machine r) with heq | heq | heq | ⟨k, _, heq, _⟩
  · exact heq
  · exact absurd (Reg.machine.inj heq) hrax
  · exact absurd (Reg.machine.inj heq) hrdx
  · cases heq

/-- Expressions are worth what they were. -/
theorem value_eq (h : S.Keeps own free s s') {e : Expr} (he : TempNamed e) :
    S.value s' e = S.value s e := by
  induction e with
  | const v | name n | absent => rfl
  | temp t => exact congrArg some (h.get_user he)
  | mem a ih => rw [Setting.value, Setting.value, ih he, h.memory]
  | binary op l r ihl ihr => rw [Setting.value, Setting.value, ihl he.1, ihr he.2]

theorem of_regs_eq (hregs : s'.regs = s.regs) (hmemory : s'.memory = s.memory)
    (hheap : s'.heap = s.heap) (houtput : s'.output = s.output) : S.Keeps own free s s' :=
  ⟨hmemory, hheap, houtput, fun r => .inl (congrArg (Registers.get · r) hregs)⟩

theorem refl (s : State) : S.Keeps own free s s := of_regs_eq rfl rfl rfl rfl

theorem advance (s : State) : S.Keeps own free s s.advance := of_regs_eq rfl rfl rfl rfl

theorem trans (h : S.Keeps own free s s') (h' : S.Keeps own free s' s'') :
    S.Keeps own free s s'' := by
  refine ⟨h'.memory.trans h.memory, h'.heap.trans h.heap, h'.output.trans h.output, ?_⟩
  intro r
  rcases h'.regs r with heq | hrax | hrdx | ⟨k, e, hk, hown, hfree | ⟨he, hvalue⟩⟩
  · rw [heq]
    exact h.regs r
  · exact .inr (.inl hrax)
  · exact .inr (.inr (.inl hrdx))
  · exact .inr (.inr (.inr ⟨k, e, hk, hown, .inl hfree⟩))
  · rw [h.value_eq he] at hvalue
    exact .inr (.inr (.inr ⟨k, e, hk, hown, .inr ⟨he, hvalue⟩⟩))

theorem mono {free' : Expr → Prop} (hfree : ∀ e, free e → free' e)
    (h : S.Keeps own free s s') : S.Keeps own free' s s' := by
  refine ⟨h.memory, h.heap, h.output, ?_⟩
  intro r
  rcases h.regs r with heq | hrax | hrdx | ⟨k, e, hk, hown, hf | hvalue⟩
  · exact .inl heq
  · exact .inr (.inl hrax)
  · exact .inr (.inr (.inl hrdx))
  · exact .inr (.inr (.inr ⟨k, e, hk, hown, .inl (hfree e hf)⟩))
  · exact .inr (.inr (.inr ⟨k, e, hk, hown, .inr hvalue⟩))

/-- A later owner of registers allows what an earlier one did. -/
theorem own_mono {own' : Owner} (hown : own.Within own') (h : S.Keeps own free s s') :
    S.Keeps own' free s s' := by
  refine ⟨h.memory, h.heap, h.output, ?_⟩
  intro r
  rcases h.regs r with heq | hrax | hrdx | ⟨k, e, hk, he, hvalue⟩
  · exact .inl heq
  · exact .inr (.inl hrax)
  · exact .inr (.inr (.inl hrdx))
  · exact .inr (.inr (.inr ⟨k, e, hk, hown k e he, hvalue⟩))

/-- A register issued for an expression that is not free keeps its value. -/
theorem get_issued (h : S.Keeps own free s s') {k : Nat} {e : Expr} (hk : own k = some e)
    (hfree : ¬ free e) (hvalue : S.value s e = some (s.get (.issued k))) :
    s'.get (.issued k) = s.get (.issued k) := by
  rcases h.regs (.issued k) with heq | heq | heq | ⟨j, f, hj, hf, hj' | ⟨_, hj'⟩⟩
  · exact heq
  · cases heq
  · cases heq
  · obtain rfl := Reg.issued_inj.mp hj
    rw [hk] at hf
    cases hf
    exact absurd hj' hfree
  · simp_all

end Setting.Keeps

end X64Backend.Select
