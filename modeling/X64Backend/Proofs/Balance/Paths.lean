import X64Backend.Proofs.Balance.Levels
import X64Backend.Proofs.Encoding

/-! # The stack along every path

The depth of the stack below a function's return address, counted along the paths that control
can take through the function's code. A path has at every instruction the depth that running
straight on has there, since labels and jumps stand where the stack is as the prologue left it.
So the depth is nothing at the return and leaves the stack aligned at calls, and it reaches
over every slot of the frame.
-/

namespace X64Backend

open Asm List

namespace Asm.Shape

variable {S : Shape} {m : Mem}

theorem Source.word {a : Operand} (h : S.Source a) (hm : m ∈ a.words) : S.Word m := by
  cases h with
  | value h =>
    cases h with
    | imm h | reg h => cases hm
  | mem h => rwa [mem_singleton.mp hm]

/-- The places of an instruction are words of its shape. -/
theorem Allows.word {x : Instr} (h : S.Allows x) (hm : m ∈ x.places) : S.Word m := by
  have hpair {a b : Operand} (h : S.Pair a b) (hm : m ∈ a.words ++ b.words) : S.Word m :=
    (mem_append.mp hm).elim h.place.source.word h.source.word
  cases h with
  | mov h | cmp h | arith hop h => exact hpair h hm
  | lea hd h => rwa [mem_singleton.mp hm]
  | call h | push h => exact h.word hm
  | imul hd h | imul3 hd h hk | idiv h | neg h | shl h hk => exact h.source.word hm
  | _ => cases hm

theorem Allows.frame_of_places (hrbp : ¬ S.reg .rbp) {x : Instr} (h : S.Allows x) {v : Int64}
    (hv : Mem.offset .rbp v ∈ x.places) : S.frame v := by
  cases h.word hv with
  | frame h => exact h
  | sum hbase _ _ => exact absurd (hbase .rbp rfl) hrbp

end Asm.Shape

namespace Balance

/-- How many bytes lie on the stack below a function's return address, and how many lay there
when the frame pointer was set. -/
structure Depth where
  current : Int64
  base : Int64
  deriving DecidableEq

/-- The depth behind an instruction. A call leaves the stack as it found it. -/
def Depth.after (d : Depth) : Instr → Depth
  | .push _ => { d with current := d.current + 8 }
  | .popRbp => { d with current := d.current - 8 }
  | .arith .sub a (.const (.imm v)) =>
    if a = .reg .rsp then { d with current := d.current + v } else d
  | .arith .add a (.const (.imm v)) =>
    if a = .reg .rsp then { d with current := d.current - v } else d
  | .mov a b =>
    if a = .reg .rsp ∧ b = .reg .rbp then { d with current := d.base }
    else if a = .reg .rbp ∧ b = .reg .rsp then { d with base := d.current }
    else d
  | _ => d

/-- The depths that paths from the first instruction of code have before its instructions. A
jump goes to every place where its label stands. -/
inductive Reaches (code : List Instr) : Nat → Depth → Prop
  | start : Reaches code 0 ⟨0, 0⟩
  | next {i : Nat} {d : Depth} {x : Instr} (h : Reaches code i d) (hx : code[i]? = some x)
      (hjump : ∀ l, x ≠ .jump .jmp l) (hret : x ≠ .ret) : Reaches code (i + 1) (d.after x)
  | jump {i j : Nat} {d : Depth} {c : Cond} {l : Name} (h : Reaches code i d)
      (hx : code[i]? = some (.jump c l)) (hl : code[j]? = some (.label l)) : Reaches code j d

/-- Code whose stack is in balance: the depth before an instruction does not depend on the path
to it, nothing is left at a return, and with the return address the stack is aligned to sixteen
bytes at every call. -/
structure Balanced (code : List Instr) : Prop where
  unique {i : Nat} {d d' : Depth} (h : Reaches code i d) (h' : Reaches code i d') : d = d'
  ret {i : Nat} {d : Depth} (h : Reaches code i d) (hx : code[i]? = some .ret) : d.current = 0
  call {i : Nat} {d : Depth} {a : Operand} (h : Reaches code i d)
    (hx : code[i]? = some (.call a)) : d.current.toInt % 16 = 8

/-- Code whose stack always reaches over the slots of the frame that it addresses. -/
def Covers (code : List Instr) : Prop :=
  ∀ i d x v, Reaches code i d → code[i]? = some x → .offset .rbp v ∈ x.places → v < 0 →
    8 - v.toInt ≤ d.current.toInt

/-- The depth behind code that is run straight on. -/
def through (d : Depth) (code : List Instr) : Depth := code.foldl Depth.after d

theorem through_append (d : Depth) (a b : List Instr) :
    through d (a ++ b) = through (through d a) b :=
  foldl_append

theorem through_take_succ {d : Depth} {code : List Instr} {i : Nat} {x : Instr}
    (hx : code[i]? = some x) :
    through d (code.take (i + 1)) = (through d (code.take i)).after x := by
  rw [take_add_one, hx, through_append]
  rfl

/-- If labels and the jumps to them stand where running straight on has one depth, every path
has the depth of running straight on. -/
theorem Reaches.eq_through {code : List Instr}
    (hjumps : ∀ {i j : Nat} {c : Cond} {l : Name}, code[i]? = some (.jump c l) →
      code[j]? = some (.label l) → through ⟨0, 0⟩ (code.take i) = through ⟨0, 0⟩ (code.take j))
    {i : Nat} {d : Depth} (h : Reaches code i d) : d = through ⟨0, 0⟩ (code.take i) := by
  induction h with
  | start => rfl
  | next _ hx _ _ ih => rw [through_take_succ hx, ← ih]
  | jump _ hx hl ih => rw [ih, hjumps hx hl]

/-! ## Bodies -/

theorem add_words (c : Int64) (d k : Nat) :
    c + 8 * Int64.ofNat (d + k) = c + 8 * Int64.ofNat d + 8 * Int64.ofNat k := by
  rw [Int64.ofNat_add, Int64.mul_add, Int64.add_assoc]

/-- What has no mark leaves the depth as it is. -/
theorem Depth.after_of_none {x : Instr} (h : mark? x = none) (d : Depth) : d.after x = d := by
  unfold Depth.after
  split
  next => cases h
  next => cases h
  next a v =>
    rw [if_neg]
    rintro rfl
    cases h
  next a v =>
    rw [if_neg]
    rintro rfl
    cases h
  next a b =>
    rw [if_neg, if_neg]
    · rintro ⟨rfl, rfl⟩
      cases h
    · rintro ⟨rfl, rfl⟩
      cases h
  next => rfl

section

variable {room d e : Nat}

/-- The depth changes by as many words as the level. -/
theorem Passes.after {x : Instr} (h : Passes room d x e) (c b : Int64) :
    Depth.after ⟨c + 8 * Int64.ofNat d, b⟩ x = ⟨c + 8 * Int64.ofNat e, b⟩ := by
  cases hx : mark? x with
  | none => rw [Depth.after_of_none hx, h.of_none hx]
  | some m =>
    have hstep := h.step hx
    unfold mark? at hx
    split at hx
    next => cases hx; cases hstep; rfl
    next => cases hx; cases hstep; rfl
    next =>
      cases hx
      cases hstep
      rw [add_words c d 1]
      rfl
    next =>
      cases hx
      cases hstep
      rfl
    next op r s =>
      split at hx
      next =>
        obtain rfl := Option.some.inj hx
        unfold shift at hstep
        split at hstep
        next v =>
          cases hstep
          rw [add_words]
          rfl
        next v =>
          cases hstep
          rw [add_words]
          exact congrArg (Depth.mk · b) (Int64.add_sub_cancel _ _)
        next => cases hstep
      next => cases hx
    next r s =>
      split at hx
      next =>
        cases hx
        cases hstep
      next => cases hx
    next => cases hx; cases hstep
    next => cases hx; cases hstep
    next => cases hx

theorem Levels.through {code : List Instr} (h : Levels room d (marks code) e) (c b : Int64) :
    through ⟨c + 8 * Int64.ofNat d, b⟩ code = ⟨c + 8 * Int64.ofNat e, b⟩ := by
  induction code generalizing d with
  | nil =>
    cases h
    rfl
  | cons x rest ih =>
    obtain ⟨f, hx, hrest⟩ := levels_marks_cons.mp h
    rw [← ih hrest, Balance.through, foldl_cons, hx.after]
    rfl

theorem Levels.le {ms : List Mark} (h : Levels room d ms e) (hd : d ≤ room) : e ≤ room := by
  induction h with
  | nil => exact hd
  | cons h _ ih => exact ih (by cases h <;> omega)

/-- Before every instruction of code there is a level, and the depth is as many words more than
at the start. -/
theorem Levels.at {code : List Instr} (h : Levels room 0 (marks code) e) (c b : Int64) {k : Nat}
    {x : Instr} (hx : code[k]? = some x) : ∃ f f', f ≤ room ∧ Passes room f x f' ∧
      Balance.through ⟨c, b⟩ (code.take k) = ⟨c + 8 * Int64.ofNat f, b⟩ := by
  have hlt := (List.getElem?_eq_some_iff.mp hx).1
  have hsplit : code = code.take k ++ x :: code.drop (k + 1) := by
    obtain ⟨_, rfl⟩ := List.getElem?_eq_some_iff.mp hx
    rw [← drop_eq_getElem_cons, take_append_drop]
  rw [hsplit, marks_append] at h
  obtain ⟨f, hbefore, hbehind⟩ := h.split
  obtain ⟨f', hpasses, _⟩ := levels_marks_cons.mp hbehind
  refine ⟨f, f', hbefore.le (Nat.zero_le _), hpasses, ?_⟩
  rw [← hbefore.through c b]
  congr 1
  simp

end

end Balance

namespace Generate

open Balance Code Select Alloc

/-! ## Frames -/

/-- An instruction that stands in the middle of three pieces of code only. -/
theorem exists_between {a b c : List Instr} {i : Nat} {x : Instr}
    (h : (a ++ b ++ c)[i]? = some x) (ha : x ∉ a) (hc : x ∉ c) :
    ∃ k, b[k]? = some x ∧ (a ++ b ++ c).take i = a ++ b.take k := by
  rw [append_assoc] at h ⊢
  by_cases hi : i < a.length
  · rw [getElem?_append_left hi] at h
    exact absurd (mem_of_getElem? h) ha
  · obtain ⟨k, rfl⟩ := Nat.exists_eq_add_of_le (Nat.not_lt.mp hi)
    rw [getElem?_append_right (Nat.le_add_right _ _), Nat.add_sub_cancel_left] at h
    rw [take_length_add_append]
    by_cases hk : k < b.length
    · grind
    · rw [getElem?_append_right (Nat.not_lt.mp hk)] at h
      exact absurd (mem_of_getElem? h) hc

section

variable {bare : Bool} {func : Name} {args slots : Nat} {code : List Instr}
  {x : Instr}
variable {i : Nat}

theorem mem_prologue (h : x ∈ prologue bare func args slots code) :
    x = .label func ∨ (∃ text, x = .comment text) ∨ x = .push (.reg .rbp) ∨
      x = .copy .rbp .rsp ∨ ∃ v, x = .arith .sub (.reg .rsp) (.imm v) := by
  unfold prologue at h
  simp only [mem_append, mem_cons] at h
  rcases h with (((h | h) | h) | h) | h
  · exact .inl h
  · split at h
    · cases h
    · exact .inr (.inl ⟨_, mem_singleton.mp h⟩)
  · grind
  · split at h
    · exact .inr (.inr (.inr (.inr ⟨_, mem_singleton.mp h⟩)))
    · cases h
  · split at h
    · cases h
    · exact .inr (.inl ⟨_, mem_singleton.mp h⟩)

/-- What stands behind a function's code up to the return. -/
def leaving (removeComments : Bool) (func : Name) (argCount slots : Nat) (code : List Instr) :
    List Instr :=
  (if removeComments then [] else [.comment (func ++ " epilogue starts")]) ++
    (if isFramed argCount slots code then [.copy .rsp .rbp, .popRbp] else [])

/-- What stands behind the return. -/
def left (removeComments : Bool) (func : Name) : List Instr :=
  if removeComments then [] else [.comment (func ++ " epilogue ends")]

theorem epilogue_eq : epilogue bare func args slots code =
    leaving bare func args slots code ++ [.ret] ++ left bare func := by
  simp only [epilogue, leaving, left, append_assoc, cons_append, nil_append]

theorem mem_leaving (h : x ∈ leaving bare func args slots code) :
    (∃ text, x = .comment text) ∨ x = .copy .rsp .rbp ∨ x = .popRbp := by
  grind [leaving, mem_singleton]

theorem mem_left (h : x ∈ left bare func) : ∃ text, x = .comment text := by
  unfold left at h
  split at h
  · cases h
  · exact ⟨_, mem_singleton.mp h⟩

/-- The depth that a prologue leaves. -/
def floor (argCount slots : Nat) (code : List Instr) : Depth :=
  if isFramed argCount slots code then ⟨8 + 8 * Int64.ofNat (frameSlots (calls code) slots), 8⟩
  else ⟨0, 0⟩

theorem floor_current (h : isFramed args slots code = true) (f : Nat) :
    (floor args slots code).current + 8 * Int64.ofNat f =
      Int64.ofNat (8 + 8 * frameSlots (calls code) slots + 8 * f) := by
  rw [floor, if_pos h]
  simp only [Int64.ofNat_add, Int64.ofNat_mul]
  rfl

theorem through_comments (d : Depth) (text : Bytes) :
    through d (if bare then [] else [.comment text]) = d := by
  split <;> rfl

theorem isFramed_eq_false (h : isFramed args slots code = false) :
    calls code = false ∧ frameSlots (calls code) slots = 0 := by
  simp only [isFramed, Bool.or_eq_false_iff, bne_eq_false_iff_eq] at h
  obtain ⟨⟨hcalls, rfl⟩, _⟩ := h
  rw [hcalls]
  exact ⟨rfl, rfl⟩

theorem through_prologue : through ⟨0, 0⟩ (prologue bare func args slots code) =
    floor args slots code := by
  have hlabel : ∀ rest, through ⟨0, 0⟩ (.label func :: rest) = through ⟨0, 0⟩ rest := fun _ => rfl
  unfold prologue floor
  simp only [cons_append, hlabel, through_append, through_comments]
  cases hframed : isFramed args slots code with
  | false =>
    rw [(isFramed_eq_false hframed).2]
    rfl
  | true =>
    by_cases hnone : frameSlots (calls code) slots = 0
    · rw [hnone]
      rfl
    · rw [bne_iff_ne.mpr hnone]
      rfl

theorem through_leaving : (through (floor args slots code)
    (leaving bare func args slots code)).current = 0 := by
  unfold leaving floor
  rw [through_append, through_comments]
  split
  · exact (by decide : (8 : Int64) - 8 = 0)
  · rfl

theorem mem_epilogue (h : x ∈ epilogue bare func args slots code) :
    (∃ text, x = .comment text) ∨ x = .copy .rsp .rbp ∨ x = .popRbp ∨ x = .ret := by
  grind [epilogue_eq, mem_singleton, mem_leaving, mem_left]

/-- Calls, jumps and labels but for the function's own stand in the body of a function, and so
does what addresses memory. -/
theorem not_mem_frame (hx : (∃ a, x = .call a) ∨ (∃ c l, x = .jump c l) ∨
      (∃ l, x = .label l ∧ l ≠ func) ∨ x.places ≠ []) :
    x ∉ prologue bare func args slots code ∧ x ∉ epilogue bare func args slots code := by
  constructor
  · intro hmem
    rcases mem_prologue hmem with rfl | ⟨text, rfl⟩ | rfl | rfl | ⟨v, rfl⟩
    · rcases hx with ⟨_, hx⟩ | ⟨_, _, hx⟩ | ⟨l, hx, hne⟩ | hx
      · cases hx
      · cases hx
      · exact hne (Instr.label.inj hx).symm
      · exact hx rfl
    all_goals
      rcases hx with ⟨_, hx⟩ | ⟨_, _, hx⟩ | ⟨_, hx, _⟩ | hx
      · cases hx
      · cases hx
      · cases hx
      · exact hx rfl
  · intro hmem
    rcases mem_epilogue hmem with ⟨text, rfl⟩ | rfl | rfl | rfl
    all_goals
      rcases hx with ⟨_, hx⟩ | ⟨_, _, hx⟩ | ⟨_, hx, _⟩ | hx
      · cases hx
      · cases hx
      · cases hx
      · exact hx rfl

variable {room : Nat} (h : Levels room 0 (marks code) 0)

include h

theorem ret_not_mem : .ret ∉ code :=
  fun hmem => h.frame_not_mem (mem_filterMap.mpr ⟨.ret, hmem, rfl⟩)

/-- In the body of a function the depth is what the prologue left, and the level. -/
theorem exists_level (hx : (frame bare func args slots code)[i]? = some x)
    (hbody : x ∉ prologue bare func args slots code ∧ x ∉ epilogue bare func args slots code) :
    x ∈ code ∧ ∃ f f', f ≤ room ∧ Passes room f x f' ∧
      through ⟨0, 0⟩ ((frame bare func args slots code).take i) =
        ⟨(floor args slots code).current + 8 * Int64.ofNat f,
          (floor args slots code).base⟩ := by
  rw [frame_eq] at hx ⊢
  obtain ⟨k, hk, htake⟩ := exists_between hx hbody.1 hbody.2
  obtain ⟨f, f', hle, hpasses, heq⟩ := h.at (floor args slots code).current
    (floor args slots code).base hk
  refine ⟨mem_of_getElem? hk, f, f', hle, hpasses, ?_⟩
  rw [htake, through_append, through_prologue]
  exact heq

/-- Labels and jumps stand where the depth is what the prologue left. -/
theorem through_control (hx : (frame bare func args slots code)[i]? = some x)
    (hbody : x ∉ prologue bare func args slots code ∧ x ∉ epilogue bare func args slots code)
    (hcontrol : mark? x = some .control) :
    through ⟨0, 0⟩ ((frame bare func args slots code).take i) = floor args slots code := by
  obtain ⟨_, f, f', _, hpasses, heq⟩ := exists_level h hx hbody
  rw [heq, (hpasses.control hcontrol).1]
  exact congrArg (Depth.mk · _) (Int64.add_zero _)

variable (hfunc : func ∉ targets code)

include hfunc

/-- Every path through a function has the depth of running straight on. -/
theorem eq_through {d : Depth} (hd : Reaches (frame bare func args slots code) i d) :
    d = through ⟨0, 0⟩ ((frame bare func args slots code).take i) := by
  refine Reaches.eq_through ?_ hd
  intro i j c l hjump hlabel
  have hbody : .jump c l ∉ prologue bare func args slots code ∧
      .jump c l ∉ epilogue bare func args slots code :=
    not_mem_frame (.inr (.inl ⟨c, l, rfl⟩))
  obtain ⟨hmem, _⟩ := exists_level h hjump hbody
  have hne : l ≠ func := by
    rintro rfl
    exact hfunc (mem_targets.mpr ⟨c, hmem⟩)
  rw [through_control h hjump hbody rfl,
    through_control h hlabel (not_mem_frame (.inr (.inr (.inl ⟨l, rfl, hne⟩)))) rfl]

omit hfunc in
theorem ret_current (hx : (frame bare func args slots code)[i]? = some .ret) :
    (through ⟨0, 0⟩ ((frame bare func args slots code).take i)).current = 0 := by
  rw [frame_eq, epilogue_eq, ← append_assoc, ← append_assoc] at hx ⊢
  have hbefore : .ret ∉ prologue bare func args slots code ++ code ++
      leaving bare func args slots code := by
    rw [mem_append, mem_append, not_or, not_or]
    refine ⟨⟨?_, ret_not_mem h⟩, ?_⟩
    · intro hmem
      rcases mem_prologue hmem with hx | ⟨_, hx⟩ | hx | hx | ⟨_, hx⟩ <;> cases hx
    · intro hmem
      rcases mem_leaving hmem with ⟨_, hx⟩ | hx | hx <;> cases hx
  have hbehind : .ret ∉ left bare func := by
    intro hmem
    obtain ⟨_, hx⟩ := mem_left hmem
    cases hx
  obtain ⟨k, hk, htake⟩ := exists_between hx hbefore hbehind
  obtain rfl : k = 0 := by
    have hlt := (List.getElem?_eq_some_iff.mp hk).1
    exact Nat.lt_one_iff.mp hlt
  have hcode := h.through (floor args slots code).current (floor args slots code).base
  rw [htake, take_zero, append_nil, through_append, through_append, through_prologue]
  have hfloor : through (floor args slots code) code = floor args slots code := by
    simp_all
  rw [hfloor]
  exact through_leaving

omit hfunc in
theorem call_current {a : Operand}
    (hx : (frame bare func args slots code)[i]? = some (.call a)) :
    (through ⟨0, 0⟩ ((frame bare func args slots code).take i)).current.toInt %
      16 = 8 := by
  obtain ⟨hmem, f, f', _, hpasses, heq⟩ := exists_level h hx (not_mem_frame (.inl ⟨a, rfl⟩))
  have heven : f % 2 = 0 := by
    cases hpasses.step rfl with
    | call h => exact h
  have hcalls : calls code = true := any_eq_true.mpr ⟨_, hmem, rfl⟩
  have hslots : frameSlots (calls code) slots % 2 = 0 := by
    rw [hcalls]
    unfold frameSlots
    split
    next hodd =>
      simp only [Bool.true_and, decide_eq_true_eq] at hodd
      omega
    next heven =>
      simp only [Bool.true_and, decide_eq_true_eq] at heven
      omega
  have hframed : isFramed args slots code = true := by simp [isFramed, hcalls]
  rw [heq]
  dsimp only
  rw [floor_current hframed, Int64.toInt_ofNat', Int.bmod_def]
  have hsize : ((Int64.size : Nat) : Int) = 18446744073709551616 := rfl
  rw [hsize]
  omega

theorem balanced_frame : Balanced (frame bare func args slots code) where
  unique hd hd' := (eq_through h hfunc hd).trans (eq_through h hfunc hd').symm
  ret hd hx := by
    rw [eq_through h hfunc hd]
    exact ret_current h hx
  call hd hx := by
    rw [eq_through h hfunc hd]
    exact call_current h hx

/-- The depth reaches over the slots of finished code, if there are few. -/
theorem covers_frame {B : Shape} (hB : ∀ d, B.frame d → ¬ d < 0)
    (hcode : (finished B slots).Code code) (hslots : slots < 2 ^ 58) (hroom : room < 2 ^ 58) :
    Covers (frame bare func args slots code) := by
  intro i d x v hd hx hv hneg
  have hplaces : x.places ≠ [] := by
    intro hnil
    rw [hnil] at hv
    cases hv
  obtain ⟨hmem, f, f', hle, _, heq⟩ :=
    exists_level h hx (not_mem_frame (.inr (.inr (.inr hplaces))))
  rw [eq_through h hfunc hd, heq]
  have hrbp : ¬ (finished B slots).reg .rbp := by
    rintro ⟨q, hq, hr⟩
    obtain rfl := Reg.machine.inj hr
    revert hq
    decide
  rcases (hcode x hmem).frame_of_places hrbp hv with hframe | ⟨k, hpos, hk, rfl⟩
  · exact absurd hneg (hB v hframe)
  · have hwords : slots ≤ frameSlots (calls code) slots ∧
        frameSlots (calls code) slots ≤ slots + 1 := by
      unfold frameSlots
      split <;> omega
    have hframed : isFramed args slots code = true := by
      have hne : (slots != 0) = true := bne_iff_ne.mpr (by omega)
      simp [isFramed, hne]
    dsimp only
    rw [floor_current hframed, toInt_slot (by omega), Int64.toInt_ofNat_of_lt (by omega)]
    omega

end

/-! ## Programs -/

section

variable {bare : Bool} {allocator : Allocator} {fn : Func NodeStmt} {code : List Instr}

theorem epilogueLabel_ne (func : Name) : epilogueLabel func ≠ func := by
  intro heq
  have hlength := congrArg List.length heq
  rw [epilogueLabel, length_append] at hlength
  have hpos : 0 < (Bytes.ofString "LABEL_FUNCTION_CALL_EPILOGUE_FOR_").length := by decide
  omega

/-- A function does not jump to its own label, if it has no other label of that name. -/
theorem not_mem_targets {result : Allocated}
    (h : function bare allocator fn =
      .ok (frame bare fn.name fn.args.length result.slots result.code))
    (hname : .label fn.name ∉ fn.body.map NodeStmt.plain) : fn.name ∉ targets result.code := by
  intro htarget
  obtain ⟨c, hjump⟩ := mem_targets.mp htarget
  have hspec := function_spec h
  have hmem : fn.name ∈ targets
      (frame bare fn.name fn.args.length result.slots result.code) := by
    rw [mem_targets, frame_eq]
    exact ⟨c, mem_append_left _ (mem_append_right _ hjump)⟩
  rcases hspec.source (hspec.mem_tail.mpr hmem) with heq | hlabel
  · exact epilogueLabel_ne fn.name heq.symm
  · exact hname hlabel

theorem exists_room (body : List NodeStmt) :
    ∃ room, ∀ s ∈ body, stackWords (passed s.plain) ≤ room := by
  refine ⟨(body.map fun s => stackWords (passed s.plain)).max?.getD 0, fun s hs => ?_⟩
  exact le_max?_getD_of_mem (mem_map.mpr ⟨s, hs, rfl⟩)

theorem balanced_function (h : function bare allocator fn = .ok code)
    (hname : .label fn.name ∉ fn.body.map NodeStmt.plain) : Balanced code := by
  obtain ⟨htemps, hcode⟩ := function_eq_ok.mp h
  obtain ⟨result, hresult, rfl⟩ := functionCode_eq_ok.mp hcode
  have hsuits : Suits (framedBy fun _ => True) fn := suits_framedBy (fun _ _ => trivial) htemps
  obtain ⟨room, hroom⟩ := exists_room fn.body
  exact balanced_frame (levels_unframed hsuits hroom hresult) (not_mem_targets h hname)

theorem covers_function (h : function bare allocator fn = .ok code)
    (hname : .label fn.name ∉ fn.body.map NodeStmt.plain)
    (hwithin : Within (2 ^ 58) bare allocator fn) : Covers code := by
  obtain ⟨htemps, hcode⟩ := function_eq_ok.mp h
  obtain ⟨result, hresult, rfl⟩ := functionCode_eq_ok.mp hcode
  have hslots := hwithin.slots hresult
  have hsuits : Suits (framedBy fun d => ¬ d < 0) fn := by
    refine suits_framedBy (fun i hi => not_neg_argument ?_) htemps
    have hlt := hwithin.args
    omega
  have hroom : ∀ s ∈ fn.body, stackWords (passed s.plain) ≤ 2 ^ 58 - 1 := by
    intro s hs
    have hlt := hwithin.calls s hs
    have hsix : MachineReg.arguments.length = 6 := rfl
    dsimp only [stackWords]
    omega
  have hfinished := hsuits.unframed (fun _ hd => hd) hresult (by omega)
  exact covers_frame (levels_unframed hsuits hroom hresult) (not_mem_targets h hname)
    (fun _ hd => hd) hfinished hslots (by omega)

end

/-- The stack of every function of a program is in balance on all paths through it, if no other
label of the function has its name. The stack reaches over all slots that are addressed, if
there are fewer than `2 ^ 58` of them and no more arguments. -/
theorem balanced_of_generate {config : Config} {allocator : Allocator} {m : Module NodeStmt}
    {p : Program} (hallocator : Allocator.ofName? config.allocator = some allocator)
    (h : generate config m = .ok p) :
    ∃ codes, p.code = codes.flatten ∧ List.Forall₂ (fun fn code =>
      function config.removeComments allocator fn = .ok code ∧
      (.label fn.name ∉ fn.body.map NodeStmt.plain →
        Balanced code ∧ (Within (2 ^ 58) config.removeComments allocator fn → Covers code)))
      m.funcs codes := by
  obtain ⟨codes, allocator', hallocator', hcodes, rfl⟩ := exists_isMadeOf h
  rw [hallocator] at hallocator'
  obtain rfl := Option.some.inj hallocator'
  refine ⟨codes, rfl, hcodes.imp ?_⟩
  intro fn code hfn
  exact ⟨hfn, fun hname => ⟨balanced_function hfn hname, covers_function hfn hname⟩⟩

/-- A function that passes seven arguments, so that one of them goes over the stack. -/
def forwarding : Module NodeStmt := numberModule {
  globals := []
  funcs := [{
    name := "f"
    args := ["x"]
    returns := true
    body := [
      .call (.name "g") [.temp "x", .const 1, .const 2, .const 3, .const 4, .const 5, .temp "x"]
        (some "y"),
      .ret (some (.binary .add (.temp "x") (.temp "y")))] }] }

theorem forwarding_balanced : ∃ (p : Program) (codes : List (List Instr)),
    generate ⟨true, "naive"⟩ forwarding = .ok p ∧ p.code = codes.flatten ∧ p.code.length = 24 ∧
      ∀ code ∈ codes, Balanced code ∧ Covers code := by
  have hlength : (generate ⟨true, "naive"⟩ forwarding).toOption.map
      (fun p => p.code.length) = some 24 := by decide +kernel
  have hfuncs : ∀ fn ∈ forwarding.funcs,
      (unframed true .stack fn).toOption.map (fun result => result.slots) = some 3 ∧
      fn.args.length < 2 ^ 58 ∧ (∀ s ∈ fn.body, passed s.plain < 2 ^ 58) ∧
      .label fn.name ∉ fn.body.map NodeStmt.plain := by decide +kernel
  cases hgenerate : generate ⟨true, "naive"⟩ forwarding with
  | error e =>
    rw [hgenerate] at hlength
    cases hlength
  | ok p =>
    rw [hgenerate] at hlength
    obtain ⟨codes, hcode, hbalanced⟩ := balanced_of_generate rfl hgenerate
    refine ⟨p, codes, rfl, hcode, Option.some.inj hlength, ?_⟩
    intro code hmem
    obtain ⟨fn, hfn, _, hspec⟩ := exists_mem_of_forall₂ hbalanced hmem
    obtain ⟨hslots, hargs, hcalls, hname⟩ := hfuncs fn hfn
    obtain ⟨hbalance, hcovers⟩ := hspec hname
    refine ⟨hbalance, hcovers ⟨fun {result} hresult => ?_, hargs, hcalls⟩⟩
    rw [hresult] at hslots
    have hthree : result.slots = 3 := Option.some.inj hslots
    omega

end Generate

end X64Backend
