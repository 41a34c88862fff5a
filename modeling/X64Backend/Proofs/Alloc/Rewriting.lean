import X64Backend.Proofs.Alloc.Replacing

/-! # Instructions between loads and stores

In its block an instruction stays one instruction of its kind. Before it stand moves into
scratch registers, behind it moves into memory.
-/

namespace X64Backend.Alloc

open Asm List

/-- A register that values are carried through: neither the stack pointer nor the frame
pointer. -/
def IsScratch (r : Reg) : Prop := r ≠ .rsp ∧ r ≠ .rbp

/-- A move into a scratch register. -/
def IsLoad (x : Instr) : Prop := ∃ t a, IsScratch t ∧ x = .mov (.reg t) a

/-- A move into memory. -/
def IsStore (x : Instr) : Prop := ∃ m a, x = .mov (.mem m) a

/-- Operands that are the same constant, or none of them is one. -/
def SameConst (a b : Operand) : Prop := ∀ c, a = .const c ↔ b = .const c

/-- Where an instruction writes instead. Registers without slots stay. -/
inductive Target (slots : Slots) : Operand → Operand → Prop
  | kept {r : Reg} (h : slots[r.name]? = none) : Target slots (.reg r) (.reg r)
  | moved {r t : Reg} (h : slots[r.name]? ≠ none) (ht : IsScratch t) : Target slots (.reg r) (.reg t)
  | slot {r : Reg} {m : Mem} (h : slots[r.name]? ≠ none) : Target slots (.reg r) (.mem m)
  | mem {m m' : Mem} : Target slots (.mem m) (.mem m')
  | const {c : Const} : Target slots (.const c) (.const c)
  | absent : Target slots .absent .absent

/-- An instruction with other operands. -/
inductive Alters (slots : Slots) : Instr → Instr → Prop
  | movAbs {d d' : Reg} {v : Int64} (h : Target slots (.reg d) (.reg d')) :
      Alters slots (.movAbs d v) (.movAbs d' v)
  | mov {d d' s s' : Operand} (hd : Target slots d d') : Alters slots (.mov d s) (.mov d' s')
  | lea {d d' : Reg} {m m' : Mem} (h : Target slots (.reg d) (.reg d')) :
      Alters slots (.lea d m) (.lea d' m')
  | cmp {l l' r r' : Operand} : Alters slots (.cmp l r) (.cmp l' r')
  | set {c : Cond} {d d' : Reg} : Alters slots (.set c d) (.set c d')
  | call {a a' : Operand} : Alters slots (.call a) (.call a')
  | arith {op : Arith} {d d' s s' : Operand} (hd : Target slots d d') (hs : SameConst s s') :
      Alters slots (.arith op d s) (.arith op d' s')
  | imul {d d' : Reg} {s s' : Operand} (h : Target slots (.reg d) (.reg d')) :
      Alters slots (.imul d s) (.imul d' s')
  | imul3 {d d' : Reg} {s s' : Operand} {k : Int64} (h : Target slots (.reg d) (.reg d')) :
      Alters slots (.imul3 d s k) (.imul3 d' s' k)
  | idiv {a a' : Operand} : Alters slots (.idiv a) (.idiv a')
  | neg {a a' : Operand} : Alters slots (.neg a) (.neg a')
  | shl {a a' : Operand} {k : Int64} : Alters slots (.shl a k) (.shl a' k)
  | push {a a' : Operand} : Alters slots (.push a) (.push a')
  | same (x : Instr) : Alters slots x x

/-- Code for an instruction: the instruction with other operands between loads and stores. -/
def Around (slots : Slots) (x : Instr) (code : List Instr) : Prop :=
  ∃ loads y stores, code = loads ++ y :: stores ∧ (∀ z ∈ loads, IsLoad z) ∧
    (∀ z ∈ stores, IsStore z) ∧ Alters slots x y

section

variable {slots : Slots} {U : Reg → Prop} {fs : Fetches} {x y : Instr} {store block : List Instr}

theorem SameConst.refl (a : Operand) : SameConst a a := fun _ => .rfl

theorem sameConst_mem (m n : Mem) : SameConst (.mem m) (.mem n) := fun _ => by simp

theorem ReadAs.sameConst {a b : Operand} (h : ReadAs inFrame slots fs a b) : SameConst a b := by
  cases h with
  | const c | absent => exact .refl _
  | _ => exact fun _ => by simp

theorem PlacedAs.target {d e : Operand} (h : PlacedAs inFrame slots fs d e) : Target slots d e := by
  cases h with
  | reg h => exact .kept h
  | slot h => exact .slot fun hnone => nomatch hnone.symm.trans h
  | mem _ => exact .mem
  | const _ => exact .const
  | absent => exact .absent

/-- Registers to go through are not the pointers. -/
theorem Around.of_block (h : Block inFrame slots U x block) (hU : ∀ r, U r → IsScratch r) :
    Around slots x block := by
  have hwritten : ∀ {d e : Reg} {store}, WrittenAs inFrame slots U d e store →
      Target slots (.reg d) (.reg e) ∧ ∀ z ∈ store, IsStore z := by
    intro d e store h
    cases h with
    | kept h => exact ⟨.kept h, fun _ => nofun⟩
    | stored h hq =>
      refine ⟨.moved (fun hnone => nomatch hnone.symm.trans h) (hU _ hq), ?_⟩
      exact forall_mem_singleton.mpr ⟨_, _, rfl⟩
  have hload : ∀ {rs} {fs : Fetches}, Fetching slots U rs fs → ∀ z ∈ fs.code inFrame, IsLoad z := by
    intro rs fs hfs z hz
    obtain ⟨p, hp, rfl⟩ := mem_map.mp hz
    exact ⟨_, _, hU _ (hfs.scratch p hp), rfl⟩
  cases h with
  | @around fs _ y store hfs hcore =>
    refine ⟨_, y, store, rfl, hload hfs, ?_⟩
    cases hcore with
    | movAbs h => exact ⟨(hwritten h).2, .movAbs (hwritten h).1⟩
    | mov hd ha => exact ⟨fun _ => nofun, .mov hd.target⟩
    | movReg h ha => exact ⟨(hwritten h).2, .mov (hwritten h).1⟩
    | lea h hm => exact ⟨(hwritten h).2, .lea (hwritten h).1⟩
    | set h => exact ⟨(hwritten h).2, .set⟩
    | arith hd ha => exact ⟨fun _ => nofun, .arith hd.target ha.sameConst⟩
    | arithReg h ha =>
      have hw := hwritten (h.writtenAs hfs)
      exact ⟨hw.2, .arith hw.1 ha.sameConst⟩
    | imul h ha =>
      have hw := hwritten (h.writtenAs hfs)
      exact ⟨hw.2, .imul hw.1⟩
    | imul3 h ha => exact ⟨(hwritten h).2, .imul3 (hwritten h).1⟩
    | _ => exact ⟨fun _ => nofun, by constructor⟩
  | @relayed fs op d q a b k hfs hd hq ha hb =>
    refine ⟨fs.code inFrame ++ [.mov (.reg q) b], .arith op (.mem (.slot k)) (.reg q), [], by simp, ?_,
      fun _ => nofun, .arith (.slot fun hnone => nomatch hnone.symm.trans hd) fun c => ?_⟩
    · rw [forall_mem_append, forall_mem_singleton]
      exact ⟨hload hfs, _, _, hU q hq, rfl⟩
    · exact ((ha.sameConst c).trans (iff_of_false (hb c) nofun))

end

/-- Two words of memory are the two operands. -/
theorem two_words {x : Instr} (h : 1 < x.words.length) : ∃ m n : Mem,
    x = .mov (.mem m) (.mem n) ∨ (∃ op, x = .arith op (.mem m) (.mem n)) ∨
      x = .cmp (.mem m) (.mem n) := by
  have hpair : ∀ {a b : Operand}, 1 < (a.words ++ b.words).length →
      ∃ m n, a = .mem m ∧ b = .mem n := by
    intro a b h
    cases a <;> cases b <;> simp [Operand.words] at h ⊢
  cases x with
  | mov d a =>
    obtain ⟨m, n, rfl, rfl⟩ := hpair h
    exact ⟨m, n, .inl rfl⟩
  | arith op d a =>
    obtain ⟨m, n, rfl, rfl⟩ := hpair h
    exact ⟨m, n, .inr (.inl ⟨op, rfl⟩)⟩
  | cmp l r =>
    obtain ⟨m, n, rfl, rfl⟩ := hpair h
    exact ⟨m, n, .inr (.inr rfl)⟩
  | call a | imul d a | imul3 d a k | idiv a | neg a | shl a k | push a =>
    exact absurd h (Nat.not_lt.mpr (words_le a))
  | _ => exact absurd h (Nat.not_lt_zero 1)

theorem isScratch_of_issued {a b : Supply} {r : Reg} (h : Issued a b r) : IsScratch r := by
  obtain ⟨j, _, _, rfl⟩ := h
  constructor <;> exact fun h => nomatch h

namespace Spilling

variable {slots : Slots} {supply supply' : Supply}

/-- Whether an instruction is a move. -/
def isMove : Instr → Bool
  | .mov _ _ => true
  | _ => false

/-- Spilled code is made of every instruction between loads and stores. -/
theorem exists_around {xs out : List Instr} (h : (code slots xs).run supply = .ok (out, supply')) :
    ∃ blocks, out = blocks.flatten ∧ List.Forall₂ (Around slots) xs blocks := by
  obtain ⟨blocks, rfl, _, hblocks⟩ := exists_blocks h
  refine ⟨blocks, rfl, hblocks.imp ?_⟩
  rintro x block ⟨_, _, _, _, hstands⟩
  exact .of_block hstands.block fun _ => isScratch_of_issued

/-- For a move there are moves. -/
theorem isMove_of_around {d s : Operand} {block : List Instr} (h : Around slots (.mov d s) block) :
    ∀ y ∈ block, isMove y = true := by
  obtain ⟨loads, y, stores, rfl, hloads, hstores, hy⟩ := h
  rw [forall_mem_append, forall_mem_cons]
  refine ⟨fun z hz => ?_, by cases hy <;> rfl, fun z hz => ?_⟩
  · obtain ⟨_, _, _, rfl⟩ := hloads z hz
    rfl
  · obtain ⟨_, _, rfl⟩ := hstores z hz
    rfl

end Spilling

namespace Stack

variable {slots : Slots}

/-- The registers to go through. -/
def Through (r : Reg) : Prop := r = .r9 ∨ r = .r10 ∨ r = .r11

theorem Through.isScratch {r : Reg} (h : Through r) : IsScratch r := by
  rcases h with rfl | rfl | rfl <;> exact ⟨by decide, by decide⟩

/-- The code for an instruction is the instruction between loads and stores. -/
theorem instr_around {x : Instr} {code : List Instr} (h : instr slots x = .ok code) :
    Around slots x code := by
  have htarget : Spilling.hasTarget x = true := by
    cases x with
    | mov d a | arith op d a => cases d <;> first | rfl | cases h
    | _ => rfl
  by_cases hone : x.words.length ≤ 1
  · have hblock : ∃ block, instr slots x = .ok block ∧ StandsFor slots Through x block :=
      instr_standsFor (.inr (.inl rfl)) (.inr (.inr rfl)) (fun _ => .inl rfl) htarget hone
    obtain ⟨block, hblock, hstands⟩ := hblock
    cases hblock.symm.trans h
    exact .of_block hstands.block fun _ => Through.isScratch
  -- An instruction with two words of memory keeps the second as it is.
  · obtain ⟨m, n, hx⟩ := two_words (Nat.lt_of_not_le hone)
    have hload : ∀ {b i : MachineReg}, b ≠ i → Through (.machine b) → Through (.machine i) → ∀ m,
        ∀ z ∈ (address slots m (.machine b) (.machine i)).1, IsLoad z := by
      intro b i hne hb hi m z hz
      have hloads : Loads slots Through m.namedRegs (address slots m (.machine b) (.machine i)).1
          fun fs => CarriedMem slots fs m (address slots m (.machine b) (.machine i)).2 :=
        address_loads hne hb hi m
      obtain ⟨fs, hcode, hfs, _⟩ := hloads
      rw [hcode] at hz
      obtain ⟨p, hp, rfl⟩ := mem_map.mp hz
      exact ⟨_, _, (hfs.scratch p hp).isScratch, rfl⟩
    have hfirst : ∀ z ∈ (address slots m .r9 .r10).1 ++ [], IsLoad z := by
      rw [append_nil]
      exact hload (by decide) (.inl rfl) (.inr (.inl rfl)) m
    rcases hx with rfl | ⟨op, rfl⟩ | rfl <;> cases h
    · exact ⟨_, _, [], rfl, hfirst, fun _ => nofun, .mov .mem⟩
    · exact ⟨_, _, [], rfl, hfirst, fun _ => nofun, .arith .mem (.refl _)⟩
    · exact ⟨_, _, [], rfl, hload (by decide) (.inr (.inl rfl)) (.inr (.inr rfl)) n,
        fun _ => nofun, .cmp⟩

end Stack

end X64Backend.Alloc
