import X64Backend.Proofs.Machine.Blocks

/-! # What an instruction does to memory

An instruction stores at most one word, at an address that can be used, and leaves the heap
and the step counter alone. Only built-in functions take blocks from the heap. Both hold whether
the instruction finishes or stops, and no instruction stops with the step limit.
-/

namespace X64Backend.Machine

open Asm

/-- Addition of words that does not leave their range is addition of integers. -/
theorem toInt_add_of_fits {a b : Int64} (hlo : -2 ^ 63 ≤ a.toInt + b.toInt)
    (hhi : a.toInt + b.toInt < 2 ^ 63) : (a + b).toInt = a.toInt + b.toInt := by
  rw [Int64.toInt_add]
  exact Int.bmod_eq_of_le (by omega) (by omega)

/-- The distance of the `i`-th word from the first. -/
theorem toInt_eight_mul {i : Nat} (h : i < 2 ^ 59) : (8 * Int64.ofNat i).toInt = 8 * i := by
  rw [Int64.toInt_mul, Int64.toInt_ofNat_of_lt (by omega)]
  show Int.bmod (8 * i) _ = _
  exact Int.bmod_eq_of_le (by omega) (by omega)

theorem toInt_emod_eight {a : Int64} : a % 8 = 0 ↔ a.toInt % 8 = 0 := by
  rw [← Int64.toInt_inj, Int64.toInt_mod]
  exact ⟨Int.emod_eq_zero_of_dvd ∘ Int.dvd_of_tmod_eq_zero,
    Int.tmod_eq_zero_of_dvd ∘ Int.dvd_of_emod_eq_zero⟩

theorem checkAddress_eq_ok_iff {a : Int64} : State.checkAddress a = .ok () ↔
    a.toInt % 8 = 0 ∧ dataStart.toInt ≤ a.toInt ∧ a.toInt < stackTop.toInt := by
  unfold State.checkAddress
  rw [← toInt_emod_eight]
  by_cases h8 : a % 8 = 0
  · by_cases hlo : a < dataStart
    · have hlo' := Int64.not_le.mpr hlo
      rw [Int64.le_iff_toInt_le] at hlo'
      simp [h8, hlo, hlo']
    · grind [stackTop, Int64.le_iff_toInt_le, Int64.not_lt, Int64.lt_iff_toInt_lt, Int64.not_le]
  · simp [h8]

/-- The addresses of a memory at which a word was written. -/
def Memory.Written (m : Memory) (address : Int64) : Prop := address ∈ m.words

namespace Memory

variable {m : Memory} {a b : Int64}

theorem not_written_empty : ¬ empty.Written a := by
  simp [Written, empty]

theorem written_write {v : Int64} : (m.write a v).Written b ↔ a = b ∨ m.Written b := by
  simp [Written, write, Std.TreeMap.mem_insert]

/-- Words written one after another stand eight bytes apart. -/
theorem written_writeAll {vs : List Int64} : (m.writeAll a vs).Written b ↔
    m.Written b ∨ ∃ i < vs.length, b = a + 8 * Int64.ofNat i := by
  induction vs generalizing m a with
  | nil => simp [writeAll]
  | cons v rest ih =>
    have hshift (i : Nat) : a + 8 + 8 * Int64.ofNat i = a + 8 * Int64.ofNat (i + 1) := by
      rw [Int64.ofNat_add, Int64.mul_add, Int64.add_assoc, Int64.add_comm 8]
      rfl
    have hzero : a = a + 8 * Int64.ofNat 0 := (Int64.add_zero a).symm
    rw [writeAll, ih, written_write]
    constructor
    · rintro ((rfl | h) | ⟨i, hi, rfl⟩)
      · exact .inr ⟨0, by simp, hzero⟩
      · exact .inl h
      · exact .inr ⟨i + 1, by simpa using hi, hshift i⟩
    · rintro (h | ⟨i, hi, rfl⟩)
      · exact .inl (.inr h)
      · cases i with
        | zero => exact .inl (.inl hzero)
        | succ i => exact .inr ⟨i, by simpa using hi, (hshift i).symm⟩

theorem written_of_zeroAll {n : Nat} (h : (m.zeroAll n a).Written b) : m.Written b := by
  induction n generalizing m a with
  | zero => exact h
  | succ n ih => exact (Std.TreeMap.mem_erase.mp (ih h)).2

theorem written_of_zeroRange {low high : Int64} (h : (m.zeroRange low high).Written b) :
    m.Written b := by
  simp only [zeroRange] at h
  split at h
  · exact written_of_zeroAll h
  · exact (Std.TreeMap.mem_filter.mp h).choose

end Memory

/-- A result, or a trap other than the step limit. -/
def Unlimited {α : Type} : Except Trap α → Prop
  | .ok _ => True
  | .error t => t.kind ≠ .stepLimit

theorem Unlimited.bind {α β : Type} {x : Except Trap α} {f : α → Except Trap β} (hx : Unlimited x)
    (hf : ∀ a, Unlimited (f a)) : Unlimited (x >>= f) := by
  cases x with
  | ok a => exact hf a
  | error t => exact hx

theorem unlimited_checkAddress (a : Int64) : Unlimited (State.checkAddress a) := by
  unfold State.checkAddress
  split_ifs
  all_goals simp [Unlimited, Trap.kind]

theorem State.unlimited_load (s : State) (a : Int64) : Unlimited (s.load a) :=
  (unlimited_checkAddress a).bind fun _ => trivial

theorem State.unlimited_store (s : State) (a v : Int64) : Unlimited (s.store a v) :=
  (unlimited_checkAddress a).bind fun _ => trivial

namespace Image

variable (img : Image) (s : State)

theorem unlimited_constValue (c : Const) : Unlimited (img.constValue c) := by
  unfold constValue
  split
  · trivial
  · split <;> simp [Unlimited, Trap.kind]

theorem unlimited_address (m : Mem) : Unlimited (img.address s m) :=
  (img.unlimited_constValue m.disp).bind fun _ => trivial

theorem unlimited_value (a : Operand) : Unlimited (img.value s a) := by
  cases a with
  | reg r => trivial
  | const c => exact img.unlimited_constValue c
  | mem m => exact (img.unlimited_address s m).bind fun _ => s.unlimited_load _
  | absent => nofun

theorem unlimited_assign (dst : Operand) (v : Int64) : Unlimited (img.assign s dst v) := by
  cases dst with
  | reg r => trivial
  | mem m => exact (img.unlimited_address s m).bind fun a => s.unlimited_store a v
  | const c | absent => nofun

end Image

/-- Every state that an outcome leaves, finished or stopped, has a property, and it was not the
step limit that stopped it. -/
def Outcome.Leaves (P : State → Prop) : Outcome → Prop
  | .ok s => P s
  | .error (t, s) => P s ∧ t.kind ≠ .stepLimit

namespace Outcome

variable {P : State → Prop} {s : State}

theorem Leaves.imp {Q : State → Prop} {o : Outcome} (h : o.Leaves P) (hPQ : ∀ s, P s → Q s) :
    o.Leaves Q := by
  cases o with
  | ok s => exact hPQ s h
  | error e => exact ⟨hPQ e.2 h.1, h.2⟩

theorem Leaves.use {α : Type} {x : Except Trap α} {f : α → Outcome} (hs : P s) (hx : Unlimited x)
    (h : ∀ a, x = .ok a → (f a).Leaves P) : (Outcome.use s x f).Leaves P := by
  cases x with
  | ok a => exact h a rfl
  | error t => exact ⟨hs, hx⟩

theorem Leaves.orElse {x : Except Trap State} (hs : P s) (hx : Unlimited x)
    (h : ∀ s', x = .ok s' → P s') : (Outcome.orElse s x).Leaves P := by
  cases x with
  | ok s' => exact h s' rfl
  | error t => exact ⟨hs, hx⟩

theorem Leaves.bind {o : Outcome} {f : State → Outcome} (ho : o.Leaves P)
    (hf : ∀ s, P s → (f s).Leaves P) : Leaves P (o >>= f) := by
  cases o with
  | ok s => exact hf s ho
  | error e => exact ho

end Outcome

/-- The heap is the same, and so is memory up to one word at an address that can be used. -/
structure State.Stores (s s' : State) : Prop where
  heap : s'.heap = s.heap
  memory : s'.memory = s.memory ∨
    ∃ a v, State.checkAddress a = .ok () ∧ s'.memory = s.memory.write a v

namespace State.Stores

theorem of_eq {s s' : State} (hheap : s'.heap = s.heap) (hmemory : s'.memory = s.memory) :
    s.Stores s' :=
  ⟨hheap, .inl hmemory⟩

theorem refl (s : State) : s.Stores s := of_eq rfl rfl

variable {img : Image} {s s' : State}

theorem of_assign {dst : Operand} {v : Int64} (h : img.assign s dst v = .ok s') : s.Stores s' := by
  cases dst with
  | reg r =>
    cases h
    exact of_eq rfl rfl
  | mem m =>
    obtain ⟨a, _, hcheck, rfl⟩ := assign_mem_eq_ok.mp h
    exact ⟨rfl, .inr ⟨a, v, hcheck, rfl⟩⟩
  | const c | absent => cases h

end State.Stores

/-- A word is stored at most, and the step counter is the same. -/
structure State.Works (s s' : State) : Prop extends s.Stores s' where
  steps : s'.steps = s.steps

theorem State.Works.of_eq {s s' : State} (hheap : s'.heap = s.heap) (hmemory : s'.memory = s.memory)
    (hsteps : s'.steps = s.steps) : s.Works s' :=
  ⟨.of_eq hheap hmemory, hsteps⟩

theorem State.Works.refl (s : State) : s.Works s := of_eq rfl rfl rfl

open Outcome

section

variable {img : Image} {s : State}

theorem State.push_leaves (s : State) (v : Int64) : (s.push v).Leaves s.Works := by
  refine Leaves.orElse (.of_eq rfl rfl rfl) (State.unlimited_store _ _ _) fun s' h => ?_
  obtain ⟨hcheck, rfl⟩ := store_eq_ok.mp h
  exact ⟨⟨rfl, .inr ⟨_, v, hcheck, rfl⟩⟩, rfl⟩

theorem Image.assign_leaves {dst : Operand} {v : Int64} :
    (Outcome.orElse s (img.assign s dst v)).Leaves s.Works := by
  refine Leaves.orElse (.refl s) (img.unlimited_assign s dst v) fun s' h => ⟨.of_assign h, ?_⟩
  cases dst with
  | reg r =>
    cases h
    rfl
  | mem m =>
    obtain ⟨_, _, _, rfl⟩ := assign_mem_eq_ok.mp h
    rfl
  | const c | absent => cases h

theorem Image.update_leaves {dst src : Operand} {f : Int64 → Int64 → Option Int64} :
    (img.update s dst src f).Leaves s.Works := by
  refine Leaves.use (.refl s) (img.unlimited_value s dst) fun d _ =>
    Leaves.use (.refl s) (img.unlimited_value s src) fun v _ => ?_
  split
  · exact Image.assign_leaves
  · exact ⟨.refl s, nofun⟩

theorem Image.enter_leaves (s : State) (i : Int) : (Image.enter s i).Leaves s.Works :=
  (s.push_leaves _).bind fun _ h => ⟨⟨h.heap, h.memory⟩, h.steps⟩

theorem State.pop_leaves {f : Int64 × State → Outcome}
    (h : ∀ v, (f (v, s.set .rsp (s.get .rsp + 8))).Leaves s.Works) :
    (Outcome.use s s.pop f).Leaves s.Works := by
  refine Leaves.use (.refl s) ((s.unlimited_load _).bind fun _ => trivial) fun (v, s') hpop => ?_
  obtain ⟨_, _, rfl⟩ := pop_eq_ok.mp hpop
  exact h v

end

/-- The built-in function that an instruction calls. -/
def builtin? : Instr → Option Builtin
  | .call (.const (.sym n)) => Builtin.ofName? n
  | _ => none

/-- An instruction that calls no built-in function stores at most one word. -/
theorem Image.exec_leaves (img : Image) (s : State) {x : Instr} (hx : builtin? x = none) :
    (img.exec s x).Leaves s.Works := by
  have hvalue := img.unlimited_value s
  cases x with
  | movAbs dst v | cqo => exact .of_eq rfl rfl rfl
  | mov dst src => exact Leaves.use (.refl s) (hvalue src) fun v _ => Image.assign_leaves
  | lea dst src =>
    exact Leaves.use (.refl s) (img.unlimited_address s src) fun a _ => .of_eq rfl rfl rfl
  | cmp l r =>
    exact Leaves.use (.of_eq rfl rfl rfl) (hvalue l) fun a _ =>
      Leaves.use (.of_eq rfl rfl rfl) (hvalue r) fun b _ => .of_eq rfl rfl rfl
  | set cond dst =>
    simp only [Image.exec]
    split
    · exact .of_eq rfl rfl rfl
    · exact .of_eq rfl rfl rfl
    · exact ⟨.of_eq rfl rfl rfl, by rintro ⟨⟩⟩
  | jump cond target =>
    simp only [Image.exec, Image.goto]
    split
    · split
      · exact .of_eq rfl rfl rfl
      · exact ⟨.refl s, by rintro ⟨⟩⟩
    · exact .refl s
    · exact ⟨.refl s, by rintro ⟨⟩⟩
  | call target =>
    -- The one word that a call stores is its return address.
    have henter (v : Int64) : Leaves s.Works
        (if v % 8 ≠ 0 || v < 0 || (img.code.size : Int) ≤ (v / 8).toInt then
          .error (.badTarget v, s) else Image.enter s (v / 8).toInt) := by
      split
      · exact ⟨.refl s, by rintro ⟨⟩⟩
      · exact Image.enter_leaves s _
    simp only [Image.exec, Image.call]
    split
    next n =>
      rw [show Builtin.ofName? n = none from hx]
      cases img.labels[n]? with
      | none => exact ⟨.refl s, by rintro ⟨⟩⟩
      | some i => exact Image.enter_leaves s i
    next => exact Leaves.use (.refl s) (hvalue target) fun v _ => henter v
  | ret | popRbp => exact State.pop_leaves fun v => .of_eq rfl rfl rfl
  | arith op dst src => exact Image.update_leaves
  | imul dst src | neg dst | shl dst count =>
    rw [Image.exec]
    exact Image.update_leaves
  | imul3 dst src factor =>
    exact Leaves.use (.refl s) (hvalue src) fun v _ => .of_eq rfl rfl rfl
  | idiv src =>
    refine Leaves.use (.refl s) (hvalue src) fun v _ => ?_
    split
    · exact ⟨.refl s, by rintro ⟨⟩⟩
    · exact .of_eq rfl rfl rfl
  | push src => exact Leaves.use (.refl s) (hvalue src) fun v _ => s.push_leaves v
  | label l | comment text => exact .refl s
  | absent => exact ⟨.refl s, by rintro ⟨⟩⟩

end X64Backend.Machine
