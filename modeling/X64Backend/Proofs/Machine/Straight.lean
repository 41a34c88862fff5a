import X64Backend.Machine.Step
import X64Backend.Proofs.Outcome

/-! # Straight runs

Code without jumps, calls and returns runs from its first instruction to its last. A run
ends in a state or fails at one of the instructions. Each step may be held to a side
condition, so that a run also says which words of memory it touches.
-/

namespace X64Backend.Asm

/-- The word of memory that an operand is. -/
def Operand.words : Operand → List Mem
  | .mem m => [m]
  | _ => []

/-- The words of memory that an instruction reads or writes as operands. -/
def Instr.words : Instr → List Mem
  | .mov a b | .cmp a b | .arith _ a b => a.words ++ b.words
  | .call a | .imul _ a | .imul3 _ a _ | .idiv a | .neg a | .shl a _ | .push a => a.words
  | .movAbs _ _ | .lea _ _ | .set _ _ | .jump _ _ | .ret | .cqo | .popRbp | .label _
  | .comment _ | .absent => []

/-- The words of memory that an instruction addresses, whether or not it reads or writes
them. -/
def Instr.places : Instr → List Mem
  | .lea _ m => [m]
  | x => x.words

end X64Backend.Asm

namespace X64Backend.Machine

open Asm

namespace State

/-- The state that an instruction is executed in: behind it, with the step counted. -/
def advance (s : State) : State := { s with ip := s.ip + 1, steps := s.steps + 1 }

@[simp] theorem get_advance (s : State) (r : Reg) : s.advance.get r = s.get r := rfl
@[simp] theorem regs_advance (s : State) : s.advance.regs = s.regs := rfl
@[simp] theorem memory_advance (s : State) : s.advance.memory = s.memory := rfl
@[simp] theorem heap_advance (s : State) : s.advance.heap = s.heap := rfl
@[simp] theorem output_advance (s : State) : s.advance.output = s.output := rfl
@[simp] theorem ip_advance (s : State) : s.advance.ip = s.ip + 1 := rfl
@[simp] theorem left_advance (s : State) : s.advance.left = s.left := rfl
@[simp] theorem right_advance (s : State) : s.advance.right = s.right := rfl

/-- A register that was set holds the word, and no other register changes. -/
theorem get_set (s : State) (r q : Reg) (v : Int64) :
    (s.set r v).get q = if r = q then v else s.get q :=
  Registers.get_set s.regs r q v

@[simp] theorem get_set_self (s : State) (r : Reg) (v : Int64) : (s.set r v).get r = v := by
  rw [get_set, if_pos rfl]

theorem get_set_of_ne {r q : Reg} (s : State) (v : Int64) (h : r ≠ q) :
    (s.set r v).get q = s.get q := by
  rw [get_set, if_neg h]

@[simp] theorem memory_set (s : State) (r : Reg) (v : Int64) : (s.set r v).memory = s.memory := rfl
@[simp] theorem heap_set (s : State) (r : Reg) (v : Int64) : (s.set r v).heap = s.heap := rfl
@[simp] theorem output_set (s : State) (r : Reg) (v : Int64) : (s.set r v).output = s.output := rfl
@[simp] theorem ip_set (s : State) (r : Reg) (v : Int64) : (s.set r v).ip = s.ip := rfl
@[simp] theorem left_set (s : State) (r : Reg) (v : Int64) : (s.set r v).left = s.left := rfl
@[simp] theorem right_set (s : State) (r : Reg) (v : Int64) : (s.set r v).right = s.right := rfl

@[simp] theorem load_advance (s : State) (a : Int64) : s.advance.load a = s.load a := rfl

end State

namespace Image

variable (img : Image)

@[simp] theorem address_advance (s : State) (m : Mem) :
    img.address s.advance m = img.address s m := rfl

@[simp] theorem value_advance (s : State) (a : Operand) :
    img.value s.advance a = img.value s a := by
  cases a <;> rfl

end Image

/-- What the base of an address adds to it. -/
def baseWord (s : State) : Option Reg → Int64
  | none | some .rip => 0
  | some r => s.get r

/-- What a scaled register adds to an address. -/
def indexWord (s : State) : Option (Reg × Int64) → Int64
  | none => 0
  | some (r, scale) => s.get r * scale

theorem address_eq (img : Image) (s : State) (m : Mem) : img.address s m =
    (img.constValue m.disp).map fun d => baseWord s m.base + indexWord s m.index + d := by
  unfold Image.address
  cases img.constValue m.disp <;> rfl

/-- Instructions behind which the next one follows. -/
def falls : Instr → Bool
  | .jump _ _ | .call _ | .ret => false
  | _ => true

/-- Instructions that move the stack pointer by themselves. -/
def usesStack : Instr → Bool
  | .push _ | .popRbp => true
  | _ => false

section

variable {img : Image} {s s' : State}
variable {v : Int64} {f : Int64 → Int64 → Option Int64} {dst src : Operand}

@[simp] theorem orElse_eq_ok {x : Except Trap State} :
    Outcome.orElse s x = .ok s' ↔ x = .ok s' := by
  cases x <;> simp [Outcome.orElse]

@[simp] theorem use_eq_ok {α : Type} {x : Except Trap α} {f : α → Outcome} :
    Outcome.use s x f = .ok s' ↔ ∃ a, x = .ok a ∧ f a = .ok s' := by
  cases x <;> simp [Outcome.use]

theorem load_eq_ok {a : Int64} :
    s.load a = .ok v ↔ State.checkAddress a = .ok () ∧ s.memory.read a = v := by
  grind [State.load, bind_eq_ok, pure_eq_ok]

theorem store_eq_ok {a : Int64} : s.store a v = .ok s' ↔
    State.checkAddress a = .ok () ∧ { s with memory := s.memory.write a v } = s' := by
  grind [State.store, bind_eq_ok, pure_eq_ok]

theorem value_mem_eq_ok {m : Mem} : img.value s (.mem m) = .ok v ↔
    ∃ a, img.address s m = .ok a ∧ State.checkAddress a = .ok () ∧ s.memory.read a = v := by
  simp only [Image.value, bind_eq_ok, load_eq_ok]

theorem assign_mem_eq_ok {m : Mem} : img.assign s (.mem m) v = .ok s' ↔
    ∃ a, img.address s m = .ok a ∧ State.checkAddress a = .ok () ∧
      { s with memory := s.memory.write a v } = s' := by
  simp only [Image.assign, bind_eq_ok, store_eq_ok]

theorem push_eq_ok : s.push v = .ok s' ↔
    State.checkAddress (s.get .rsp - 8) = .ok () ∧
      { s.set .rsp (s.get .rsp - 8) with
        memory := s.memory.write (s.get .rsp - 8) v } = s' := by
  simp only [State.push, orElse_eq_ok, store_eq_ok, State.get_set_self, State.memory_set]

theorem pop_eq_ok : s.pop = .ok (v, s') ↔
    State.checkAddress (s.get .rsp) = .ok () ∧ s.memory.read (s.get .rsp) = v ∧
      s.set .rsp (s.get .rsp + 8) = s' := by
  grind [State.pop, bind_eq_ok, load_eq_ok, pure_eq_ok, Prod.mk.injEq]

theorem update_eq_ok :
    img.update s dst src f = .ok s' ↔ ∃ d v r, img.value s dst = .ok d ∧
      img.value s src = .ok v ∧ f d v = some r ∧ img.assign s dst r = .ok s' := by
  grind [Image.update, use_eq_ok, orElse_eq_ok]

theorem update_reg_error {r : Reg} {t : Trap} (h : img.value s src = .error t) :
    img.update s (.reg r) src f = .error (t, s) := by
  simp only [Image.update, h]
  rfl

theorem ip_of_assign (h : img.assign s dst v = .ok s') : s'.ip = s.ip := by
  cases dst with
  | reg r =>
    cases h
    rfl
  | mem m =>
    obtain ⟨_, _, _, rfl⟩ := assign_mem_eq_ok.mp h
    rfl
  | const c | absent => cases h

theorem ip_of_update (h : img.update s dst src f = .ok s') : s'.ip = s.ip := by
  obtain ⟨_, _, _, _, _, _, h⟩ := update_eq_ok.mp h
  exact ip_of_assign h

/-- An instruction that others follow leaves the position behind itself. -/
theorem ip_of_exec {x : Instr} (hx : falls x = true) (h : img.exec s x = .ok s') :
    s'.ip = s.ip := by
  cases x with
  | movAbs dst v | cqo | label l | comment text =>
    cases h
    rfl
  | mov dst src =>
    obtain ⟨_, _, h⟩ := use_eq_ok.mp h
    exact ip_of_assign (orElse_eq_ok.mp h)
  | lea dst src | imul3 dst src factor =>
    obtain ⟨_, _, h⟩ := use_eq_ok.mp h
    cases h
    rfl
  | cmp l r =>
    obtain ⟨_, _, h⟩ := use_eq_ok.mp h
    obtain ⟨_, _, h⟩ := use_eq_ok.mp h
    cases h
    rfl
  | set cond dst =>
    simp only [Image.exec] at h
    split at h <;> cases h <;> rfl
  | jump cond target | call target | ret => cases hx
  | arith op dst src => exact ip_of_update h
  | imul dst src | neg dst | shl dst count =>
    rw [Image.exec] at h
    exact ip_of_update h
  | idiv src =>
    obtain ⟨v, _, h⟩ := use_eq_ok.mp h
    split at h
    · cases h
    · cases h
      rfl
  | push src =>
    obtain ⟨v, _, h⟩ := use_eq_ok.mp h
    obtain ⟨_, rfl⟩ := push_eq_ok.mp h
    rfl
  | popRbp =>
    obtain ⟨⟨v, s''⟩, hpop, h⟩ := use_eq_ok.mp h
    obtain ⟨_, _, rfl⟩ := pop_eq_ok.mp hpop
    cases h
    rfl
  | absent => cases h

end

/-- The code runs from one state to another, and every step meets the side condition. -/
inductive Seq (img : Image) (ok : State → Instr → Prop) : List Instr → State → State → Prop
  | nil (s : State) : Seq img ok [] s s
  | cons {x : Instr} {code : List Instr} {s s' s'' : State} (hx : falls x = true) (hok : ok s x)
      (h : img.exec s.advance x = .ok s') (rest : Seq img ok code s' s'') :
      Seq img ok (x :: code) s s''

/-- The code fails at one of its instructions. -/
inductive Fails (img : Image) : List Instr → State → Prop
  | here {x : Instr} {code : List Instr} {s : State} {e : Trap × State}
      (h : img.exec s.advance x = .error e) : Fails img (x :: code) s
  | there {x : Instr} {code : List Instr} {s s' : State} (hx : falls x = true)
      (h : img.exec s.advance x = .ok s') (rest : Fails img code s') : Fails img (x :: code) s

section

variable {img : Image} {ok : State → Instr → Prop} {a b : List Instr} {s s' s'' : State}

theorem Seq.append (ha : Seq img ok a s s') (hb : Seq img ok b s' s'') :
    Seq img ok (a ++ b) s s'' := by
  induction ha with
  | nil => exact hb
  | cons hx hok h _ ih => exact .cons hx hok h (ih hb)

theorem Seq.single {x : Instr} (hx : falls x = true) (hok : ok s x)
    (h : img.exec s.advance x = .ok s') : Seq img ok [x] s s' :=
  .cons hx hok h (.nil s')

theorem Fails.append_left (h : Fails img a s) : Fails img (a ++ b) s := by
  induction h with
  | here h => exact .here h
  | there hx h _ ih => exact .there hx h ih

theorem Seq.fails_append (ha : Seq img ok a s s') (hb : Fails img b s') :
    Fails img (a ++ b) s := by
  induction ha with
  | nil => exact hb
  | cons hx _ h _ ih => exact .there hx h (ih hb)

theorem Seq.ip_eq (h : Seq img ok a s s') : s'.ip = s.ip + a.length := by
  induction h with
  | nil => simp
  | cons hx _ h _ ih =>
    rw [ih, ip_of_exec hx h, State.ip_advance, List.length_cons]
    omega

theorem Seq.mono {ok' : State → Instr → Prop} (hmono : ∀ s x, ok s x → ok' s x)
    (h : Seq img ok a s s') : Seq img ok' a s s' := by
  induction h with
  | nil => exact .nil _
  | cons hx hok h _ ih => exact .cons hx (hmono _ _ hok) h ih

end

end X64Backend.Machine
