import X64Backend.Dataflow.Access
import X64Backend.Proofs.Machine.Straight

/-! # Registers read and written

The registers that each instruction reads and writes, operand by operand.
-/

namespace X64Backend.Asm.Operand

/-- The registers that reading an operand reads. -/
def regs : Operand → List Reg
  | .reg r => [r]
  | .mem m => m.regs
  | .const _ | .absent => []

/-- The registers that writing an operand reads. -/
def indirect : Operand → List Reg
  | .mem m => m.regs
  | .reg _ | .const _ | .absent => []

/-- The register that writing an operand writes. -/
def target : Operand → List Reg
  | .reg r => [r]
  | .mem _ | .const _ | .absent => []

theorem mem_regs_of_indirect {a : Operand} {r : Reg} (h : r ∈ a.indirect) : r ∈ a.regs := by
  cases a with
  | mem m => exact h
  | _ => cases h

theorem mem_regs_of_target {a : Operand} {r : Reg} (h : r ∈ a.target) : r ∈ a.regs := by
  cases a with
  | reg q => exact h
  | _ => cases h

end X64Backend.Asm.Operand

namespace X64Backend.Dataflow

open Asm List

/-- The registers that an instruction reads. -/
def uses (x : Instr) : List Reg :=
  match accesses false x with
  | .ok as => as.filterMap Access.used?
  | .error _ => []

/-- The registers that an instruction writes. -/
def defs (x : Instr) : List Reg :=
  match accesses false x with
  | .ok as => as.filterMap Access.defined?
  | .error _ => []

theorem used_map_use (rs : List Reg) : (rs.map Access.use).filterMap Access.used? = rs := by
  induction rs with
  | nil => rfl
  | cons r rs ih => simp [Access.used?, ih]

theorem defined_map_use (rs : List Reg) : (rs.map Access.use).filterMap Access.defined? = [] := by
  simp [Access.defined?]

@[simp] theorem used_reads (a : Operand) : (reads a).filterMap Access.used? = a.regs := by
  cases a with
  | mem m => exact used_map_use m.regs
  | _ => rfl

@[simp] theorem defined_reads (a : Operand) : (reads a).filterMap Access.defined? = [] := by
  cases a with
  | mem m => exact defined_map_use m.regs
  | _ => rfl

@[simp] theorem used_updates (a : Operand) : (updates a).filterMap Access.used? = a.regs := by
  cases a with
  | mem m => exact used_map_use m.regs
  | _ => rfl

@[simp] theorem defined_updates (a : Operand) :
    (updates a).filterMap Access.defined? = a.target := by
  cases a with
  | mem m => exact defined_map_use m.regs
  | _ => rfl

@[simp] theorem used_writes (a : Operand) : (writes a).filterMap Access.used? = a.indirect := by
  cases a with
  | mem m => exact used_map_use m.regs
  | _ => rfl

@[simp] theorem defined_writes (a : Operand) : (writes a).filterMap Access.defined? = a.target := by
  cases a with
  | mem m => exact defined_map_use m.regs
  | _ => rfl

section

variable (d r : Reg) (a b : Operand) (m : Mem) (v k : Int64) (c : Cond) (op : Arith)

@[simp] theorem uses_movAbs : uses (.movAbs d v) = [] := rfl
@[simp] theorem defs_movAbs : defs (.movAbs d v) = [d] := rfl

@[simp] theorem uses_mov : uses (.mov a b) = a.indirect ++ b.regs := by simp [uses, accesses]
@[simp] theorem defs_mov : defs (.mov a b) = a.target := by simp [defs, accesses]

@[simp] theorem uses_lea : uses (.lea d m) = m.regs := used_reads (.mem m)
@[simp] theorem defs_lea : defs (.lea d m) = [d] := congrArg (d :: ·) (defined_reads (.mem m))

@[simp] theorem uses_cmp : uses (.cmp a b) = a.regs ++ b.regs := by simp [uses, accesses]
@[simp] theorem defs_cmp : defs (.cmp a b) = [] := by simp [defs, accesses]

@[simp] theorem uses_set : uses (.set c d) = [] := rfl
@[simp] theorem defs_set : defs (.set c d) = [d] := rfl

@[simp] theorem uses_arith : uses (.arith op a b) = a.regs ++ b.regs := by simp [uses, accesses]
@[simp] theorem defs_arith : defs (.arith op a b) = a.target := by simp [defs, accesses]

@[simp] theorem uses_imul : uses (.imul d a) = d :: a.regs := by
  simp [uses, accesses, Operand.regs]
@[simp] theorem defs_imul : defs (.imul d a) = [d] := by simp [defs, accesses, Operand.target]

@[simp] theorem uses_imul3 : uses (.imul3 d a k) = a.regs := used_reads a
@[simp] theorem defs_imul3 : defs (.imul3 d a k) = [d] := congrArg (d :: ·) (defined_reads a)

@[simp] theorem uses_cqo : uses .cqo = [.rax] := rfl
@[simp] theorem defs_cqo : defs .cqo = [.rdx] := rfl

@[simp] theorem uses_idiv : uses (.idiv a) = a.regs ++ [.rax, .rdx] := by
  simp [uses, accesses, Operand.regs]
@[simp] theorem defs_idiv : defs (.idiv a) = [.rax, .rdx] := by
  simp [defs, accesses, Operand.target]

@[simp] theorem uses_neg : uses (.neg a) = a.regs := used_updates a
@[simp] theorem defs_neg : defs (.neg a) = a.target := defined_updates a

@[simp] theorem uses_shl : uses (.shl a k) = a.regs := used_updates a
@[simp] theorem defs_shl : defs (.shl a k) = a.target := defined_updates a

@[simp] theorem uses_push : uses (.push a) = a.regs ++ [.rsp] := by
  simp [uses, accesses, Operand.regs]
@[simp] theorem defs_push : defs (.push a) = [.rsp] := by simp [defs, accesses, Operand.target]

@[simp] theorem uses_call :
    uses (.call a) = a.regs ++ MachineReg.arguments.map Reg.machine := by
  simp only [uses, accesses, filterMap_append, used_reads, append_assoc]
  rfl

@[simp] theorem defs_call : defs (.call a) = MachineReg.callerSaved.map Reg.machine := by
  simp only [defs, accesses, filterMap_append, defined_reads, nil_append]
  rfl

@[simp] theorem defs_jump (l : Name) : defs (.jump c l) = [] := rfl
@[simp] theorem defs_label (l : Name) : defs (.label l) = [] := rfl
@[simp] theorem defs_comment (text : Bytes) : defs (.comment text) = [] := rfl

end

/-- The registers in the addresses of an instruction's words are read. -/
theorem regs_subset_uses {x : Instr} {m : Mem} (hm : m ∈ x.words) : m.regs ⊆ uses x := by
  have hop : ∀ {a : Operand}, m ∈ a.words → m.regs ⊆ a.indirect ∧ m.regs ⊆ a.regs := by
    intro a ha
    cases a with
    | mem n =>
      rw [mem_singleton.mp ha]
      exact ⟨List.Subset.refl _, List.Subset.refl _⟩
    | _ => cases ha
  intro r hr
  cases x with
  | mov a b =>
    rcases mem_append.mp hm with ha | hb
    · simp [(hop ha).1 hr]
    · simp [(hop hb).2 hr]
  | cmp a b | arith op a b =>
    rcases mem_append.mp hm with ha | hb
    · simp [(hop ha).2 hr]
    · simp [(hop hb).2 hr]
  | call a | imul d a | idiv a | push a => simp [(hop hm).2 hr]
  | imul3 d a k | neg a | shl a k => simpa using (hop hm).2 hr
  | _ => cases hm

section

open Machine

variable {img : Image} {s s' : State} {r : Reg}

theorem get_of_assign {d : Operand} {v : Int64} (h : img.assign s d v = .ok s')
    (hr : r ∉ d.target) : s'.get r = s.get r := by
  cases d with
  | reg q =>
    cases h
    exact State.get_set_of_ne s v fun hq => hr (mem_singleton.mpr hq.symm)
  | mem m =>
    obtain ⟨_, _, _, rfl⟩ := assign_mem_eq_ok.mp h
    rfl
  | const c | absent => cases h

theorem get_of_update {d a : Operand} {f : Int64 → Int64 → Option Int64}
    (h : img.update s d a f = .ok s') (hr : r ∉ d.target) : s'.get r = s.get r := by
  obtain ⟨_, _, _, _, _, _, h⟩ := update_eq_ok.mp h
  exact get_of_assign h hr

/-- An instruction changes no registers but those it writes. Calls and returns are left out:
they move the stack pointer and write no operand. -/
theorem get_of_exec {x : Instr} (hcall : ∀ a, x ≠ .call a) (hret : x ≠ .ret)
    (h : img.exec s x = .ok s') (hr : r ∉ defs x) : s'.get r = s.get r := by
  cases x with
  | movAbs d v =>
    cases h
    exact State.get_set_of_ne s v fun hd => hr (by simp [hd])
  | mov d a =>
    obtain ⟨_, _, h⟩ := use_eq_ok.mp h
    exact get_of_assign (orElse_eq_ok.mp h) (by simpa using hr)
  | lea d m =>
    obtain ⟨a, _, h⟩ := use_eq_ok.mp h
    cases h
    exact State.get_set_of_ne s a fun hd => hr (by simp [hd])
  | cmp a b =>
    obtain ⟨_, _, h⟩ := use_eq_ok.mp h
    obtain ⟨_, _, h⟩ := use_eq_ok.mp h
    cases h
    rfl
  | set c d =>
    have hd : d ≠ r := fun hd => hr (by simp [hd])
    simp only [Image.exec] at h
    split at h
    · cases h
      rw [State.get_set_of_ne _ _ hd, State.get_set_of_ne _ _ hd]
    · cases h
      exact State.get_set_of_ne _ _ hd
    · cases h
  | jump c l =>
    simp only [Image.exec, Image.goto] at h
    split at h
    · split at h
      · cases h
        rfl
      · cases h
    · cases h
      rfl
    · cases h
  | call a => exact absurd rfl (hcall a)
  | ret => exact absurd rfl hret
  | arith op d a => exact get_of_update h (by simpa using hr)
  | imul d a =>
    rw [Image.exec] at h
    exact get_of_update h (by simpa [Operand.target] using hr)
  | imul3 d a k =>
    obtain ⟨v, _, h⟩ := use_eq_ok.mp h
    cases h
    exact State.get_set_of_ne s _ fun hd => hr (by simp [hd])
  | cqo =>
    cases h
    exact State.get_set_of_ne s _ fun hd => hr (by simp [← hd])
  | idiv a =>
    obtain ⟨v, _, h⟩ := use_eq_ok.mp h
    split at h
    · cases h
    · cases h
      rw [State.get_set_of_ne _ _ fun hd => hr (by simp [← hd]),
        State.get_set_of_ne _ _ fun hd => hr (by simp [← hd])]
  | neg d | shl d k =>
    rw [Image.exec] at h
    exact get_of_update h (by simpa using hr)
  | push a =>
    obtain ⟨v, _, h⟩ := use_eq_ok.mp h
    obtain ⟨_, rfl⟩ := push_eq_ok.mp h
    exact State.get_set_of_ne s _ fun hd => hr (by simp [← hd])
  | popRbp =>
    obtain ⟨⟨v, s''⟩, hpop, h⟩ := use_eq_ok.mp h
    obtain ⟨_, _, rfl⟩ := pop_eq_ok.mp hpop
    cases h
    have hdefs : defs .popRbp = [.rsp, .rbp] := rfl
    rw [State.get_set_of_ne _ _ fun hd => hr (by simp [hdefs, ← hd]),
      State.get_set_of_ne _ _ fun hd => hr (by simp [hdefs, ← hd])]
  | label l | comment text =>
    cases h
    rfl
  | absent => cases h

end

end X64Backend.Dataflow
