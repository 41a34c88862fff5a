import X64Backend.Proofs.Machine.Effects

/-! # Words on the stack

Pushing puts words below each other, and the last one is at the stack pointer. As long as
there is room no push fails, and memory outside the words pushed stays as it was.
-/

namespace X64Backend.Machine

open Asm

/-- There is room for `n` more words on the stack. -/
structure State.Room (s : State) (n : Nat) : Prop where
  aligned : (s.get .rsp).toInt % 8 = 0
  low : dataStart.toInt + 8 * n ≤ (s.get .rsp).toInt
  high : (s.get .rsp).toInt ≤ stackTop.toInt

/-- The second state has these words on its stack above what the first has there, the last
one pushed first. -/
structure Stacked (s s' : State) (words : List Int64) : Prop where
  rsp : (s'.get .rsp).toInt = (s.get .rsp).toInt - 8 * words.length
  word (k : Nat) (v : Int64) (hk : words[k]? = some v) (a : Int64)
    (ha : a.toInt = (s'.get .rsp).toInt + 8 * k) : s'.memory.read a = v
  outside (a : Int64) (ha : a.toInt < (s'.get .rsp).toInt ∨ (s.get .rsp).toInt ≤ a.toInt) :
    s'.memory.read a = s.memory.read a

section

variable {s s' s'' : State} {us vs : List Int64} {n : Nat}

theorem dataStart_toInt : dataStart.toInt = 4096 := rfl

theorem stackTop_toInt : stackTop.toInt = 2013265920 := rfl

theorem State.Room.of_le {m : Nat} (h : s.Room n) (hle : m ≤ n) : s.Room m :=
  ⟨h.aligned, by have := h.low; omega, h.high⟩

theorem State.Room.advance (h : s.Room n) : s.advance.Room n := ⟨h.aligned, h.low, h.high⟩

theorem Stacked.refl (hrsp : s'.get .rsp = s.get .rsp) (hmemory : s'.memory = s.memory) :
    Stacked s s' [] where
  rsp := by simp [hrsp]
  word := by simp
  outside a _ := by rw [hmemory]

theorem Stacked.trans (h : Stacked s s' us) (h' : Stacked s' s'' vs) :
    Stacked s s'' (vs ++ us) := by
  have hrsp := h.rsp
  have hrsp' := h'.rsp
  refine ⟨by rw [List.length_append]; push_cast; omega, ?_, ?_⟩
  · grind [List.getElem?_append_left, h'.word, List.getElem?_append_right, h'.outside, h.word]
  · intro a ha
    rw [h'.outside a (by omega), h.outside a (by omega)]

theorem Stacked.room (h : Stacked s s' us) (hroom : s.Room (n + us.length)) : s'.Room n := by
  have hrsp := h.rsp
  obtain ⟨haligned, hlow, hhigh⟩ := hroom
  push_cast at hlow
  exact ⟨by omega, by omega, by omega⟩

/-- What else a state holds does not matter for its stack. -/
theorem Stacked.congr (h : Stacked s s' us) (hrsp : s''.get .rsp = s'.get .rsp)
    (hmemory : s''.memory = s'.memory) : Stacked s s'' us := by
  simpa using h.trans (Stacked.refl hrsp hmemory)

theorem Stacked.of_advance (h : Stacked s.advance s' us) : Stacked s s' us :=
  ⟨h.rsp, h.word, h.outside⟩

theorem toInt_sub_eight (h : s.Room (n + 1)) :
    (s.get .rsp - 8).toInt = (s.get .rsp).toInt - 8 := by
  have hlow := h.low
  have hhigh := h.high
  rw [dataStart_toInt] at hlow
  rw [stackTop_toInt] at hhigh
  have h8 : (-8 : Int64).toInt = -8 := rfl
  rw [Int64.sub_eq_add_neg, toInt_add_of_fits, h8]
  · omega
  · rw [h8]
    omega
  · rw [h8]
    omega

/-- A word is taken on the stack without being written. -/
theorem Stacked.reserve (h : s.Room (n + 1)) (hrsp : s'.get .rsp = s.get .rsp - 8)
    (hmemory : s'.memory = s.memory) : Stacked s s' [s.memory.read (s.get .rsp - 8)] := by
  have height := toInt_sub_eight h
  refine ⟨by rw [hrsp, height]; simp, ?_, fun a _ => by rw [hmemory]⟩
  intro k v hk a ha
  cases k with
  | succ k => simp at hk
  | zero =>
    grind [Int64.toInt_inj]

/-- The state with a word pushed. -/
def State.pushed (s : State) (v : Int64) : State :=
  { s.set .rsp (s.get .rsp - 8) with memory := s.memory.write (s.get .rsp - 8) v }

theorem State.get_pushed {r : Reg} (hr : r ≠ .rsp) (v : Int64) :
    (s.pushed v).get r = s.get r :=
  State.get_set_of_ne s _ (Ne.symm hr)

@[simp] theorem State.rsp_pushed (v : Int64) : (s.pushed v).get .rsp = s.get .rsp - 8 :=
  State.get_set_self s .rsp _

@[simp] theorem State.ip_pushed (v : Int64) : (s.pushed v).ip = s.ip := rfl

theorem push_eq_pushed (h : s.Room (n + 1)) (v : Int64) : s.push v = .ok (s.pushed v) := by
  have height := toInt_sub_eight h
  have hlow := h.low
  have hhigh := h.high
  have haligned := h.aligned
  rw [push_eq_ok]
  refine ⟨checkAddress_eq_ok_iff.mpr ?_, rfl⟩
  push_cast at hlow
  rw [height]
  refine ⟨by omega, by omega, by omega⟩

theorem Stacked.push (h : s.Room (n + 1)) (v : Int64) : Stacked s (s.pushed v) [v] := by
  have height := toInt_sub_eight h
  have hmemory : (s.pushed v).memory = s.memory.write (s.get .rsp - 8) v := rfl
  refine ⟨by rw [State.rsp_pushed, height]; simp, ?_, ?_⟩
  · grind [Int64.toInt_inj, State.rsp_pushed, Memory.read_write]
  · grind [State.rsp_pushed, Memory.read_write]

end

end X64Backend.Machine
