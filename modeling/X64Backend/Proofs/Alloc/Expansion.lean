import X64Backend.Proofs.Alloc.Fetches
import X64Backend.Proofs.Layout
import X64Backend.Proofs.Machine.Blocks
import X64Backend.Proofs.Machine.Calls

/-! # Blocks in the place of instructions

In code every instruction may give way to a block, with more code around. Labels stand where
their blocks begin.
-/

namespace X64Backend.Machine

open Asm

section

variable {img : Image} {calls : Calls} {ok : State → Instr → Prop} {P : Outcome → Prop}
  {Q : Ending → Prop} {code : List Instr} {i : Nat} {x : Instr} {s s' : State}

theorem isCall_of_falls (h : falls x = true) : isCall x = false := by
  cases x with
  | call a => cases h
  | _ => rfl

theorem moves_of_falls (h : falls x = true) {o : Outcome} :
    img.Moves calls s x o ↔ o = img.exec s.advance x :=
  Image.moves_of_not_call (isCall_of_falls h)

theorem ip_of_falls (hx : falls x = true) (h : img.exec s.advance x = .ok s') (hip : s.ip = i) :
    s'.ip = (i + 1 : Nat) := by
  rw [ip_of_exec hx h, State.ip_advance, hip]
  rfl

/-- Straight code is run before more steps are taken. -/
theorem Seq.advances (h : Seq img ok code s s') (hcode : img.Holds i code) (hip : s.ip = i)
    (hrest : img.Advances calls ok P s') : img.Advances calls ok P s := by
  induction h generalizing i with
  | nil s => exact hrest
  | @cons x code s s' s'' hx hok hexec _ ih =>
    refine .more ⟨i, hip, hcode.head⟩ hok ?_ ?_
    · intro t ht
      rw [moves_of_falls hx, hexec] at ht
      cases ht
      exact ih hcode.tail (ip_of_falls hx hexec hip) hrest
    · intro e he
      rw [moves_of_falls hx, hexec] at he
      cases he

/-- Straight code is run before the code settles. -/
theorem Seq.settles (h : Seq img ok code s s') (hcode : img.Holds i code) (hip : s.ip = i)
    (hrest : img.Settles calls ok Q s') : img.Settles calls ok Q s := by
  induction h generalizing i with
  | nil s => exact hrest
  | @cons x code s s' s'' hx hok hexec _ ih =>
    have hstep : img.Advances calls ok (fun o => o = .ok s') s :=
      .last ⟨i, hip, hcode.head⟩ hok fun o ho => ((moves_of_falls hx).mp ho).trans hexec
    refine hstep.settles (fun t ht => ?_) fun e t ht => nomatch ht
    cases ht
    exact ih hcode.tail (ip_of_falls hx hexec hip) hrest

/-- A run that goes on behind straight code does so from its beginning. -/
theorem Seq.lasts (h : Seq img ok code s s') (hcode : img.Holds i code) (hip : s.ip = i) {n : Nat}
    (hrest : img.Lasts calls ok n s') : img.Lasts calls ok n s := by
  induction h generalizing i with
  | nil s => exact hrest
  | @cons x code s s' s'' hx hok hexec _ ih =>
    have hmoves : img.Moves calls s x (.ok s') := (moves_of_falls hx).mpr hexec.symm
    have hsucc : img.Lasts calls ok (n + 1) s := ⟨x, s', ⟨i, hip, hcode.head⟩, hok, hmoves,
      ih hcode.tail (ip_of_falls hx hexec hip) hrest⟩
    exact hsucc.of_succ

/-- Code that runs as another does after straight code does so from its beginning. -/
theorem RunsAs.after {img' : Image} {ok' : State → Instr → Prop} {E : Ending → Ending → Prop}
    {t t' : State} (h : RunsAs calls E img ok s img' ok' t') (hseq : Seq img' ok' code t t')
    (hcode : img'.Holds i code) (hip : t.ip = i) : RunsAs calls E img ok s img' ok' t where
  settles hs := hseq.settles hcode hip (h.settles hs)
  endless hcalls hs n := hseq.lasts hcode hip (h.endless hcalls hs n)

end

end X64Backend.Machine

namespace X64Backend.Alloc

open Asm Machine List

/-- Where the block for the instruction at a position begins. -/
def offset (blocks : List (List Instr)) (i : Nat) : Nat := (blocks.take i).flatten.length

section

variable {blocks : List (List Instr)} {block : List Instr} {i : Nat}

@[simp] theorem offset_zero : offset blocks 0 = 0 := rfl

theorem offset_succ (h : blocks[i]? = some block) :
    offset blocks (i + 1) = offset blocks i + block.length := by
  obtain ⟨hi, rfl⟩ := List.getElem?_eq_some_iff.mp h
  rw [offset, take_succ_eq_append_getElem hi, flatten_append, length_append]
  simp [offset]

theorem offset_length : offset blocks blocks.length = blocks.flatten.length := by
  rw [offset, take_length]

theorem flatten_eq (h : blocks[i]? = some block) :
    blocks.flatten = (blocks.take i).flatten ++ (block ++ (blocks.drop (i + 1)).flatten) := by
  obtain ⟨hi, rfl⟩ := List.getElem?_eq_some_iff.mp h
  rw [← flatten_cons, ← flatten_append, getElem_cons_drop, take_append_drop]

end

/-! ## Labels at the beginnings of blocks -/

/-- A block holds a label only if it is one. -/
def KeepsLabel (x : Instr) (block : List Instr) : Prop :=
  (∀ l, x = .label l → block = [.label l]) ∧ (x.label? = none → labels block = [])

theorem position?_flatten {code : List Instr} {blocks : List (List Instr)}
    (h : List.Forall₂ KeepsLabel code blocks) (l : Name) :
    position? blocks.flatten l = (position? code l).map (offset blocks) := by
  induction h with
  | nil => rfl
  | @cons x b code blocks hb _ ih =>
    have hoffset : ∀ i, offset (b :: blocks) (i + 1) = b.length + offset blocks i := by
      intro i
      simp [offset]
    rw [flatten_cons, position?_append, ih, position?]
    cases position? code l with
    | some i => simp [hoffset]
    | none =>
      rw [Option.map_none, Option.map_none, Option.none_or]
      by_cases hx : x = .label l
      · rw [hb.1 l hx, hx]
        simp [position?]
      · rw [if_neg hx, Option.map_none, position?_eq_none]
        cases hlabel : x.label? with
        | none =>
          rw [hb.2 hlabel]
          exact not_mem_nil
        | some k =>
          rw [Instr.label?_eq_some] at hlabel
          rw [hb.1 k hlabel]
          rintro hmem
          simp [Instr.label?] at hmem
          exact hx (by rw [hlabel, hmem])

theorem labels_eq_nil {code : List Instr} : labels code = [] ↔ ∀ x ∈ code, x.label? = none := by
  rw [labels, filterMap_eq_nil_iff]

/-- Code around blocks that has no labels moves theirs. -/
theorem position?_around {pre post code : List Instr} (hpre : labels pre = [])
    (hpost : labels post = []) (l : Name) :
    position? (pre ++ code ++ post) l = (position? code l).map (pre.length + ·) := by
  have hpre' : position? pre l = none := by rw [position?_eq_none, hpre]; exact not_mem_nil
  have hpost' : position? post l = none := by rw [position?_eq_none, hpost]; exact not_mem_nil
  rw [position?_append, hpost', position?_append, hpre']
  simp

theorem Core.label?_eq {loc : Nat → Operand} {slots : Slots} {U : Reg → Prop} {fs : Fetches}
    {x y : Instr} {store : List Instr} (h : Core loc slots U fs x y store) :
    y.label? = x.label? := by
  cases h <;> rfl

/-- What stands for a label is the label, and nothing else has one. -/
theorem Block.keepsLabel {loc : Nat → Operand} {slots : Slots} {U : Reg → Prop} {x : Instr}
    {block : List Instr} (h : Block loc slots U x block) : KeepsLabel x block := by
  refine ⟨?_, fun hx => labels_eq_nil.mpr (h.forall_mem (fun _ _ => rfl) (fun _ _ _ => rfl) ?_)⟩
  · rintro l rfl
    exact h.eq_of_none fun _ => nofun
  · exact fun hcore => hcore.label?_eq.trans hx

end X64Backend.Alloc
