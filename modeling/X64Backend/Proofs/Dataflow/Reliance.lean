import X64Backend.Proofs.Dataflow.Uses

/-! # What an instruction depends on

Two machines that agree on the registers that an instruction reads cannot be told apart by what
it does: it ends at one trap on both or on neither, and writes the same words.
-/

namespace X64Backend.Dataflow

open Asm Machine List

/-- Two machines at one position, with the same memory, that compared the same words. -/
structure SameButRegs (s t : State) : Prop where
  ip : s.ip = t.ip
  memory : s.memory = t.memory
  left : s.left = t.left
  right : s.right = t.right

/-- Two machines are left so. Only registers of a list are written, and with the same word on
both machines. -/
structure Leaves (ds : List Reg) (s t s' t' : State) : Prop extends SameButRegs s' t' where
  kept : ∀ r ∉ ds, s'.get r = s.get r ∧ t'.get r = t.get r
  written : ∀ r ∈ ds, s'.get r = t'.get r ∨ (s'.get r = s.get r ∧ t'.get r = t.get r)

/-- An instruction that writes registers of a list ends in the same way on two machines. If it
is no trap at which it ends, all these registers are written. -/
inductive Agreed (ds : List Reg) (s t : State) : Outcome → Outcome → Prop
  | ok {s' t' : State} (h : Leaves ds s t s' t') (hdefs : ∀ r ∈ ds, s'.get r = t'.get r) :
      Agreed ds s t (.ok s') (.ok t')
  | error {s' t' : State} (e : Trap) (h : Leaves ds s t s' t') :
      Agreed ds s t (.error (e, s')) (.error (e, t'))

section

variable {img : Image} {s t : State} {ds : List Reg}
variable {s' t' : State}

theorem address_eq_of_agree {m : Mem} (h : ∀ r ∈ m.regs, s.get r = t.get r) :
    img.address s m = img.address t m := by
  have hbase : baseWord s m.base = baseWord t m.base := by
    cases hb : m.base with
    | none => rfl
    | some r =>
      cases r with
      | rip => rfl
      | machine q | abstract n => exact h _ (by simp [Mem.regs, hb])
  have hindex : indexWord s m.index = indexWord t m.index := by
    cases hi : m.index with
    | none => rfl
    | some p => exact congrArg (· * p.2) (h p.1 (by simp [Mem.regs, hi]))
  rw [Machine.address_eq, Machine.address_eq, hbase, hindex]

theorem value_eq_of_agree {a : Operand} (hst : SameButRegs s t)
    (h : ∀ r ∈ a.regs, s.get r = t.get r) : img.value s a = img.value t a := by
  cases a with
  | reg r => exact congrArg Except.ok (h r mem_cons_self)
  | const c | absent => rfl
  | mem m => simp only [Image.value, address_eq_of_agree (m := m) h, State.load, hst.memory]

/-! ## Single effects -/

theorem Leaves.of_same (h : SameButRegs s t) : Leaves ds s t s t :=
  ⟨h, fun _ _ => ⟨rfl, rfl⟩, fun _ _ => .inr ⟨rfl, rfl⟩⟩

/-- One more register of the list is written. -/
theorem Leaves.set {d : Reg} (h : Leaves ds s t s' t') (hd : d ∈ ds) (v : Int64) :
    Leaves ds s t (s'.set d v) (t'.set d v) := by
  refine ⟨⟨h.ip, h.memory, h.left, h.right⟩, fun r hr => ?_, fun r hr => ?_⟩
  · grind [State.get_set_of_ne, h.kept]
  · by_cases heq : d = r
    · subst heq
      exact .inl ((State.get_set_self s' d v).trans (State.get_set_self t' d v).symm)
    · rw [State.get_set_of_ne s' v heq, State.get_set_of_ne t' v heq]
      exact h.written r hr

theorem get_set_singleton (d : Reg) (v : Int64) :
    ∀ r ∈ [d], (s'.set d v).get r = (t'.set d v).get r := by
  intro r hr
  rw [mem_singleton.mp hr, State.get_set_self, State.get_set_self]

theorem Agreed.set (h : SameButRegs s t) (d : Reg) (v : Int64) :
    Agreed [d] s t (.ok (s.set d v)) (.ok (t.set d v)) :=
  .ok (.set (.of_same h) mem_cons_self v) (get_set_singleton d v)

/-- Two registers are written, the second one last. -/
theorem Agreed.set_set (h : SameButRegs s t) (d e : Reg) (v w : Int64) :
    Agreed [d, e] s t (.ok ((s.set d v).set e w)) (.ok ((t.set d v).set e w)) := by
  refine .ok (.set (.set (.of_same h) (by simp) v) (by simp) w) fun r hr => ?_
  by_cases he : e = r
  · subst he
    rw [State.get_set_self, State.get_set_self]
  · grind [State.get_set_of_ne, mem_cons_self, mem_singleton,
      get_set_singleton]

/-- What is read alike is used alike. -/
theorem Agreed.use {α : Type} {p q : Except Trap α} {f g : α → Outcome} (hpq : p = q)
    (h : Leaves ds s t s' t') (hf : ∀ a, Agreed ds s t (f a) (g a)) :
    Agreed ds s t (Outcome.use s' p f) (Outcome.use t' q g) := by
  subst hpq
  cases p with
  | ok a => exact hf a
  | error e => exact .error e h

/-- A word is stored where only some registers were written before, and these agree. -/
theorem Agreed.store (h : Leaves ds s t s' t') (hdefs : ∀ r ∈ ds, s'.get r = t'.get r)
    (a v : Int64) :
    Agreed ds s t (Outcome.orElse s' (s'.store a v)) (Outcome.orElse t' (t'.store a v)) := by
  unfold State.store
  cases State.checkAddress a with
  | error e => exact .error e h
  | ok _ =>
    refine .ok ⟨⟨h.ip, ?_, h.left, h.right⟩, h.kept, h.written⟩ hdefs
    exact congrArg (·.write a v) h.memory

theorem Agreed.assign {d : Operand} (hst : SameButRegs s t)
    (h : ∀ r ∈ d.indirect, s.get r = t.get r) (v : Int64) :
    Agreed d.target s t (Outcome.orElse s (img.assign s d v))
      (Outcome.orElse t (img.assign t d v)) := by
  cases d with
  | reg r => exact .set hst r v
  | const c | absent => exact .error _ (.of_same hst)
  | mem m =>
    simp only [Image.assign, address_eq_of_agree (m := m) h]
    cases img.address t m with
    | error e => exact .error e (.of_same hst)
    | ok a => exact .store (.of_same hst) (fun r hr => absurd hr not_mem_nil) a v

theorem Agreed.update {d a : Operand} {f : Int64 → Int64 → Option Int64} (hst : SameButRegs s t)
    (hd : ∀ r ∈ d.regs, s.get r = t.get r) (ha : ∀ r ∈ a.regs, s.get r = t.get r) :
    Agreed d.target s t (img.update s d a f) (img.update t d a f) := by
  refine .use (value_eq_of_agree hst hd) (.of_same hst) fun v =>
    .use (value_eq_of_agree hst ha) (.of_same hst) fun w => ?_
  cases f v w with
  | none => exact .error _ (.of_same hst)
  | some r => exact .assign hst (fun r hr => hd r (Operand.mem_regs_of_indirect hr)) r

/-- The condition holds on both machines or on neither, or has no meaning. -/
theorem Agreed.holds {c : Cond} {o p : Outcome} (h : Leaves ds s t s' t')
    (hdefs : ∀ r ∈ ds, s'.get r = t'.get r) (htrue : Agreed ds s t o p) :
    Agreed ds s t
      (match c.holds s'.left s'.right with
        | .ok true => o
        | .ok false => .ok s'
        | .error d => .error (.defect d, s'))
      (match c.holds t'.left t'.right with
        | .ok true => p
        | .ok false => .ok t'
        | .error d => .error (.defect d, t')) := by
  rw [h.left, h.right]
  cases c.holds t'.left t'.right with
  | error d => exact .error _ h
  | ok b =>
    cases b with
    | true => exact htrue
    | false => exact .ok h hdefs

end

/-! ## Instructions -/

/-- What an instruction reads and writes, as reported where functions give a value or not. -/
theorem accesses_eq {x : Instr} {returns : Bool} {as : List Access}
    (has : accesses returns x = .ok as) (hret : x ≠ .ret) :
    uses x = as.filterMap Access.used? ∧ defs x = as.filterMap Access.defined? := by
  have hsame : accesses false x = accesses returns x := by
    cases x with
    | ret => exact absurd rfl hret
    | _ => rfl
  rw [uses, defs, hsame, has]
  exact ⟨rfl, rfl⟩

/-- An instruction other than a call or a return, on two machines that differ in no register that
it is said to read: it ends at one trap on both or on neither, position, memory and compared
words are the same again, the machines agree on what it is said to write, and all other registers
stay. At a trap a register that it is said to write may have stayed as well. -/
theorem exec_agreed {img : Image} {x : Instr} {returns : Bool} {as : List Access}
    (has : accesses returns x = .ok as) (hcall : ∀ a, x ≠ .call a) (hret : x ≠ .ret) {s t : State}
    (hst : SameButRegs s t) (hread : ∀ r ∈ as.filterMap Access.used?, s.get r = t.get r) :
    Agreed (as.filterMap Access.defined?) s t (img.exec s x) (img.exec t x) := by
  obtain ⟨huses, hdefs⟩ := accesses_eq has hret
  rw [← huses] at hread
  rw [← hdefs]
  have hrefl : ∀ {ds}, Leaves ds s t s t := .of_same hst
  have hnone : ∀ {s' t' : State}, ∀ r ∈ ([] : List Reg), s'.get r = t'.get r :=
    fun r hr => nomatch hr
  have hvalue : ∀ {a : Operand}, (∀ r ∈ a.regs, r ∈ uses x) → img.value s a = img.value t a :=
    fun ha => value_eq_of_agree hst fun r hr => hread r (ha r hr)
  cases x with
  | movAbs d v => exact .set hst d v
  | mov d a =>
    rw [defs_mov]
    refine .use (hvalue fun r hr => by simp [hr]) hrefl fun v => ?_
    exact .assign hst (fun r hr => hread r (by simp [hr])) v
  | lea d m =>
    rw [defs_lea]
    refine .use (address_eq_of_agree fun r hr => hread r (by simpa using hr)) hrefl fun a => ?_
    exact .set hst d a
  | cmp l r =>
    rw [defs_cmp]
    -- The words compared before are gone as soon as an operand is read.
    have hleaves : ∀ a b, Leaves [] s t { s with left := a, right := b }
        { t with left := a, right := b } := fun a b =>
      ⟨⟨hst.ip, hst.memory, rfl, rfl⟩, fun _ _ => ⟨rfl, rfl⟩, fun r hr => nomatch hr⟩
    refine .use (hvalue fun q hq => by simp [hq]) ?_ fun a =>
      .use (hvalue fun q hq => by simp [hq]) (hleaves a 0) fun b => .ok (hleaves a b) hnone
    exact ⟨⟨hst.ip, hst.memory, rfl, hst.right⟩, fun _ _ => ⟨rfl, rfl⟩, fun r hr => nomatch hr⟩
  | set c d =>
    have hd : d ∈ [d] := List.mem_cons_self
    refine .holds (hrefl.set hd 0) (get_set_singleton d 0) ?_
    exact .ok ((hrefl.set hd 0).set hd 1) (get_set_singleton d 1)
  | jump c l =>
    refine .holds hrefl hnone ?_
    unfold Image.goto
    cases img.labels[l]? with
    | none => exact .error _ hrefl
    | some i =>
      exact .ok ⟨⟨rfl, hst.memory, hst.left, hst.right⟩, hrefl.kept, hrefl.written⟩ hnone
  | call a => exact absurd rfl (hcall a)
  | ret => exact absurd rfl hret
  | arith op d a =>
    rw [defs_arith]
    exact .update hst (fun r hr => hread r (by simp [hr])) fun r hr => hread r (by simp [hr])
  | imul d a =>
    rw [defs_imul]
    refine .update (d := .reg d) (f := fun v w => some (v * w)) hst (fun r hr => hread r ?_)
      fun r hr => hread r (by simp [hr])
    simp [List.mem_singleton.mp hr]
  | imul3 d a k =>
    rw [defs_imul3]
    refine .use (hvalue fun r hr => by simpa using hr) hrefl fun v => ?_
    exact .set hst d (v * k)
  | cqo =>
    have hrax : s.get .rax = t.get .rax := hread .rax (by simp)
    show Agreed [.rdx] s t (.ok (s.set .rdx _)) (.ok (t.set .rdx _))
    rw [hrax]
    exact .set hst .rdx _
  | idiv a =>
    have hrax : s.get .rax = t.get .rax := hread .rax (by simp)
    rw [defs_idiv]
    refine .use (hvalue fun r hr => by simp [hr]) hrefl fun v => ?_
    by_cases hv : v = 0
    · rw [if_pos hv, if_pos hv]
      exact .error _ hrefl
    · rw [if_neg hv, if_neg hv, hrax]
      exact .set_set hst .rax .rdx _ _
  | neg d =>
    rw [defs_neg]
    exact .update (a := .imm 0) (f := fun v _ => some (-v)) hst
      (fun r hr => hread r (by simpa using hr)) hnone
  | shl d k =>
    rw [defs_shl]
    exact .update (a := .imm k) (f := fun v w => some (v <<< (w &&& 63))) hst
      (fun r hr => hread r (by simpa using hr)) hnone
  | push a =>
    have hrsp : s.get .rsp = t.get .rsp := hread .rsp (by simp)
    rw [defs_push]
    refine .use (hvalue fun r hr => by simp [hr]) hrefl fun v => ?_
    simp only [State.push, State.get_set_self, hrsp]
    exact .store (hrefl.set List.mem_cons_self _) (get_set_singleton .rsp _) _ v
  | popRbp =>
    have hrsp : s.get .rsp = t.get .rsp := hread .rsp List.mem_cons_self
    have hload : s.load (t.get .rsp) = t.load (t.get .rsp) := by
      simp only [State.load, hst.memory]
    show Agreed [.rsp, .rbp] s t _ _
    simp only [Image.exec, State.pop, hrsp, hload]
    cases t.load (t.get .rsp) with
    | error e => exact .error e hrefl
    | ok v => exact .set_set hst .rsp .rbp _ v
  | label l => exact .ok hrefl hnone
  | comment text => exact .ok hrefl hnone
  | absent => exact .error _ hrefl

/-- A state with one word in a register. -/
def lone (r : Reg) (v : Int64) : State :=
  { regs := Registers.zero.set r v, memory := .empty, left := 0, right := 0, heap := 0, ip := 0,
    steps := 0, output := #[] }

/-- Machines that differ in a register that is only written do so no more. -/
theorem exec_agreed_cqo : (lone .rdx 5).get .rdx ≠ (lone .rdx 7).get .rdx ∧
    Agreed [.rdx] (lone .rdx 5) (lone .rdx 7) ((Image.mk #[] ∅ ∅).exec (lone .rdx 5) .cqo)
      ((Image.mk #[] ∅ ∅).exec (lone .rdx 7) .cqo) :=
  have haccesses : accesses false .cqo = .ok [.use .rax, .define .rdx] := rfl
  ⟨by decide, exec_agreed haccesses (fun _ h => nomatch h) (fun h => nomatch h)
    ⟨rfl, rfl, rfl, rfl⟩ (by decide)⟩

/-- A load that fails writes no register: what its target held before may differ, and still
does. -/
theorem failed_load_disagrees : ∃ s t s' t' : State,
    accesses false (.mov (.reg .rax) (.mem ⟨none, none, .imm 4097⟩)) = .ok [.define .rax] ∧
      SameButRegs s t ∧
      (Image.mk #[] ∅ ∅).exec s (.mov (.reg .rax) (.mem ⟨none, none, .imm 4097⟩)) =
        .error (.unaligned 4097, s') ∧
      (Image.mk #[] ∅ ∅).exec t (.mov (.reg .rax) (.mem ⟨none, none, .imm 4097⟩)) =
        .error (.unaligned 4097, t') ∧
      s'.get .rax ≠ t'.get .rax :=
  ⟨lone .rax 1, lone .rax 2, lone .rax 1, lone .rax 2, rfl, ⟨rfl, rfl, rfl, rfl⟩, rfl, rfl,
    by decide⟩

end X64Backend.Dataflow
