import Mathlib.Data.List.Chain
import X64Backend.Proofs.Balance.Marks

/-! # Levels of the stack

How many words lie on the stack above a function's frame, from instruction to instruction.
Labels and jumps stand at level zero and calls at even levels, and every call gives back the
words that it took. Selection makes such code and tidying keeps it so; what cannot be reached
ends at a label, and there the level is zero again.
-/

namespace X64Backend.Balance

open Asm List

variable {code : List Instr}

/-- How a mark changes the level, where it may stand. No level goes over the room that there
is. -/
inductive Step (room : Nat) : Nat → Mark → Nat → Prop
  | control : Step room 0 .control 0
  | push {d : Nat} (h : d < room) : Step room d .push (d + 1)
  | take {d k : Nat} (h : d + k ≤ room) : Step room d (.take (8 * Int64.ofNat k)) (d + k)
  | give (d k : Nat) : Step room (d + k) (.give (8 * Int64.ofNat k)) d
  | call {d : Nat} (h : d % 2 = 0) : Step room d .call d

/-- The levels before and behind a list of marks. -/
inductive Levels (room : Nat) : Nat → List Mark → Nat → Prop
  | nil (d : Nat) : Levels room d [] d
  | cons {d e f : Nat} {m : Mark} {ms : List Mark} (h : Step room d m e)
      (rest : Levels room e ms f) : Levels room d (m :: ms) f

/-- How an instruction changes the level. -/
def Passes (room d : Nat) (x : Instr) (e : Nat) : Prop := Levels room d (mark? x).toList e

section

variable {room d e f : Nat} {a b : List Mark}
variable {x : Instr}

theorem Levels.append (ha : Levels room d a e) (hb : Levels room e b f) :
    Levels room d (a ++ b) f := by
  induction ha with
  | nil d => exact hb
  | cons h _ ih => exact .cons h (ih hb)

theorem Levels.split (h : Levels room d (a ++ b) f) :
    ∃ e, Levels room d a e ∧ Levels room e b f := by
  induction a generalizing d with
  | nil => exact ⟨d, .nil d, h⟩
  | cons m rest ih =>
    cases h with
    | cons h hrest =>
      obtain ⟨e, hleft, hright⟩ := ih hrest
      exact ⟨e, .cons h hleft, hright⟩

theorem levels_marks_cons {code : List Instr} :
    Levels room d (marks (x :: code)) f ↔
      ∃ e, Passes room d x e ∧ Levels room e (marks code) f := by
  rw [marks_cons]
  exact ⟨Levels.split, fun ⟨_, hx, hcode⟩ => hx.append hcode⟩

theorem Passes.of_none (hx : mark? x = none) (h : Passes room d x e) : e = d := by
  rw [Passes, hx] at h
  cases h
  rfl

theorem Passes.step {m : Mark} (hx : mark? x = some m) (h : Passes room d x e) :
    Step room d m e := by
  rw [Passes, hx] at h
  cases h with
  | cons h hnil =>
    cases hnil
    exact h

/-- Labels and jumps stand at level zero. -/
theorem Passes.control (hx : mark? x = some .control) (h : Passes room d x e) : d = 0 ∧ e = 0 := by
  cases h.step hx
  exact ⟨rfl, rfl⟩

/-- Code with levels does nothing to a frame. -/
theorem Levels.frame_not_mem (h : Levels room d a e) : .frame ∉ a := by
  induction h with
  | nil => exact not_mem_nil
  | cons h _ ih =>
    rw [mem_cons, not_or]
    refine ⟨?_, ih⟩
    rintro rfl
    cases h

end

/-! ## Dropping labels and jumps -/

/-- Marks without some of the labels and jumps. -/
inductive Loses : List Mark → List Mark → Prop
  | nil : Loses [] []
  | keep (m : Mark) {a b : List Mark} (h : Loses a b) : Loses (m :: a) (m :: b)
  | drop {a b : List Mark} (h : Loses a b) : Loses (.control :: a) b

theorem Loses.refl (a : List Mark) : Loses a a := by
  induction a with
  | nil => exact .nil
  | cons m rest ih => exact .keep m ih

theorem Loses.append {a b c d : List Mark} (h : Loses a b) (h' : Loses c d) :
    Loses (a ++ c) (b ++ d) := by
  induction h with
  | nil => exact h'
  | keep m _ ih => exact .keep m ih
  | drop _ ih => exact .drop ih

theorem loses_control : Loses [.control] [] := .drop .nil

/-- The levels stay what they are, for labels and jumps do not change them. -/
theorem Levels.lose {room d e : Nat} {a b : List Mark} (h : Levels room d a e)
    (hloses : Loses a b) : Levels room d b e := by
  induction hloses generalizing d with
  | nil => exact h
  | keep m _ ih =>
    cases h with
    | cons hstep hrest => exact .cons hstep (ih hrest)
  | drop _ ih =>
    cases h with
    | cons hstep hrest =>
      cases hstep
      exact ih hrest

theorem loses_filter {p : Instr → Bool} (code : List Instr)
    (hp : ∀ x, p x = false → mark? x = none ∨ mark? x = some .control) :
    Loses (marks code) (marks (code.filter p)) := by
  induction code with
  | nil => exact .nil
  | cons x rest ih =>
    rw [filter_cons]
    split
    next =>
      rw [marks_cons, marks_cons]
      exact (Loses.refl _).append ih
    next hx =>
      rw [marks_cons]
      rcases hp x (by simpa using hx) with hx | hx
      · rw [hx]
        exact ih
      · rw [hx]
        exact .drop ih

theorem loses_dropComments (code : List Instr) :
    Loses (marks code) (marks (Tidy.dropComments code)) := by
  refine loses_filter code fun x hx => .inl ?_
  cases x <;> first | rfl | cases hx

theorem loses_withoutIdleLabels (code : List Instr) :
    Loses (marks code) (marks (Tidy.withoutIdleLabels code)) := by
  refine loses_filter code fun x hx => .inr ?_
  cases x <;> first | rfl | cases hx

theorem loses_withoutIdleJumps (code : List Instr) :
    Loses (marks code) (marks (Tidy.withoutIdleJumps code)) := by
  induction code with
  | nil => exact .nil
  | cons x rest ih =>
    unfold Tidy.withoutIdleJumps
    split
    next hidle =>
      cases x with
      | jump c l => exact .drop ih
      | _ => cases hidle
    next =>
      rw [marks_cons, marks_cons]
      exact (Loses.refl _).append ih

theorem loses_coalesceInstr {next : Std.TreeMap Name Name} {x : Instr} {o : Option Instr}
    (h : Tidy.coalesceInstr next x = .ok o) : Loses (mark? x).toList (marks o.toList) := by
  unfold Tidy.coalesceInstr at h
  split at h
  next l =>
    obtain rfl := Except.ok.inj h
    split
    · exact loses_control
    · exact .refl _
  next c l =>
    obtain ⟨l', _, h⟩ := bind_eq_ok.mp h
    cases pure_eq_ok.mp h
    exact .refl _
  next =>
    cases h
    rw [Option.toList_some, marks_cons, marks_nil, append_nil]
    exact .refl _

theorem loses_coalesceLabels {out : List Instr} {changed : Bool}
    (h : Tidy.coalesceLabels code = .ok (out, changed)) : Loses (marks code) (marks out) := by
  have hall : ∀ {next} {xs : List Instr} {kept : List (Option Instr)},
      List.Forall₂ (fun x o => Tidy.coalesceInstr next x = .ok o) xs kept →
      Loses (marks xs) (marks (kept.filterMap id)) := by
    intro next xs kept h
    induction h with
    | nil => exact .nil
    | @cons x o xs kept hstep _ ih =>
      have hcons : (o :: kept).filterMap id = o.toList ++ kept.filterMap id := by
        cases o <;> rfl
      rw [hcons, marks_cons, marks_append]
      exact (loses_coalesceInstr hstep).append ih
  rcases Tidy.coalesceLabels_eq_ok h with ⟨rfl, _⟩ | ⟨_, kept, hkept, rfl⟩
  · exact .refl _
  · exact hall hkept

/-! ## Dropping what cannot be reached -/

/-- Instructions in a row, with marks whether they stay: behind one that stays and does not
jump away the next stays, and behind one that goes only a label stays. -/
def Resumes (a b : Instr × Bool) : Prop :=
  (a.2 = true → (∀ l, a.1 ≠ .jump .jmp l) → a.1 ≠ .ret → b.2 = true) ∧
    (a.2 = false → b.2 = true → ∃ l, b.1 = .label l)

/-- The level before what stays of code: zero, if the first instruction goes. -/
def entry (d : Nat) : List (Instr × Bool) → Nat
  | (_, false) :: _ => 0
  | _ => d

theorem levels_kept {room d : Nat} {m : List (Instr × Bool)} (hm : m.IsChain Resumes)
    (h : Levels room d (marks (m.map Prod.fst)) 0) :
    Levels room (entry d m) (marks ((m.filter Prod.snd).map Prod.fst)) 0 := by
  induction m generalizing d with
  | nil => exact h
  | cons head rest ih =>
    obtain ⟨x, stays⟩ := head
    obtain ⟨e, hx, hrest⟩ := levels_marks_cons.mp h
    have hkept := ih hm.tail hrest
    cases stays with
    | true =>
      have hentry : entry e rest = e := by
        -- what jumps away stands at level zero, and nothing else is followed by a gap
        by_cases hjump : mark? x = some .control
        · rw [(hx.control hjump).2]
          unfold entry
          split <;> rfl
        · cases rest with
          | nil => rfl
          | cons next rest =>
            have hret : x ≠ .ret := by
              rintro rfl
              exact h.frame_not_mem mem_cons_self
            have hplain : ∀ l, x ≠ .jump .jmp l := by
              rintro l rfl
              exact hjump rfl
            have hstays := (isChain_cons_cons.mp hm).1.1 rfl hplain hret
            obtain ⟨y, k⟩ := next
            cases hstays
            rfl
      rw [hentry] at hkept
      exact levels_marks_cons.mpr ⟨e, hx, hkept⟩
    | false =>
      have hentry : entry e rest = 0 := by
        cases rest with
        | nil =>
          cases hrest
          rfl
        | cons next rest =>
          obtain ⟨y, k⟩ := next
          cases k with
          | false => rfl
          | true =>
            obtain ⟨l, hl⟩ := (isChain_cons_cons.mp hm).1.2 rfl rfl
            obtain rfl : y = .label l := hl
            obtain ⟨_, hy, _⟩ := levels_marks_cons.mp hrest
            exact (hy.control rfl).1
      rw [hentry] at hkept
      exact hkept

/-- The instructions of code, marked whether their positions are in a set. -/
def marked (code : List Instr) (keep : KeySet) : List (Instr × Bool) :=
  code.zipIdx.map fun (x, i) => (x, keep.contains i)

theorem map_fst_marked (code : List Instr) (keep : KeySet) :
    (marked code keep).map Prod.fst = code := by
  rw [marked, map_map]
  exact zipIdx_map_fst 0 code

theorem atPositions_eq (code : List Instr) (keep : KeySet) :
    Tidy.atPositions code keep = ((marked code keep).filter Prod.snd).map Prod.fst := by
  rw [marked, filter_map, map_map]
  rfl

theorem getElem_marked {keep : KeySet} {i : Nat} (hi : i < (marked code keep).length) :
    ∃ x, code[i]? = some x ∧ (marked code keep)[i] = (x, keep.contains i) := by
  have hlt : i < code.length := by simpa [marked] using hi
  exact ⟨code[i], getElem?_eq_getElem hlt, by simp [marked]⟩

theorem isChain_marked {succs : Array (List Nat)} (h : Dataflow.successors code = .ok succs) :
    (marked code (Dataflow.reachable succs)).IsChain Resumes := by
  have hlt := Dataflow.successors_lt h
  rw [isChain_iff_getElem]
  intro i hi
  obtain ⟨x, hx, hxeq⟩ := getElem_marked (Nat.lt_of_succ_lt hi)
  obtain ⟨y, hy, hyeq⟩ := getElem_marked hi
  rw [hxeq, hyeq]
  constructor
  · intro hstays hjump hret
    refine (Dataflow.reachable_spec hlt).2 i (i + 1) hstays ?_
    exact Dataflow.next_mem_successors h hx hjump hret (List.getElem?_eq_some_iff.mp hy).1
  · intro hgoes hstays
    rcases Dataflow.reachable_origin hlt hstays with hzero | ⟨j, hj, hmem⟩
    · cases hzero
    · have hjlt : j < code.length := by
        by_contra hout
        rw [Array.getD, dif_neg (by rw [(Dataflow.successors_spec h).1]; exact hout)] at hmem
        cases hmem
      rcases Dataflow.successor_cases h (getElem?_eq_getElem hjlt) hmem with
        ⟨heq, _⟩ | ⟨_, l, _, hl⟩
      · obtain rfl := Nat.succ.inj heq
        exact absurd (hgoes.symm.trans hj) Bool.false_ne_true
      · have hlabel := getElem?_of_position? hl
        rw [hy] at hlabel
        exact ⟨l, Option.some.inj hlabel⟩

section

variable {room : Nat} {code out : List Instr}

theorem Levels.dropUnreachable {changed : Bool} (h : Levels room 0 (marks code) 0)
    (hout : Tidy.dropUnreachable code = .ok (out, changed)) : Levels room 0 (marks out) 0 := by
  obtain ⟨succs, hsuccs, rfl, _⟩ := Tidy.dropUnreachable_eq_ok hout
  rw [atPositions_eq]
  rw [← map_fst_marked code (Dataflow.reachable succs)] at h
  have hkept := levels_kept (isChain_marked hsuccs) h
  unfold entry at hkept
  split at hkept <;> exact hkept

theorem Levels.round {changed : Bool} (hout : Tidy.round code = .ok (out, changed))
    (h : Levels room 0 (marks code) 0) : Levels room 0 (marks out) 0 := by
  obtain ⟨a, b, _, _, ha, hb, rfl, _⟩ := Tidy.round_eq_ok hout
  have hlevels := (h.lose (loses_coalesceLabels ha)).dropUnreachable hb
  exact (hlevels.lose (loses_withoutIdleJumps b)).lose (loses_withoutIdleLabels _)

/-- Tidy code has levels if the code had them. -/
theorem Levels.tidy {bare : Bool} (h : Levels room 0 (marks code) 0)
    (hout : Tidy.tidy bare code = .ok out) : Levels room 0 (marks out) 0 := by
  refine Tidy.rounds_keep (M := fun code => Levels room 0 (marks code) 0) Levels.round hout ?_
  split
  · exact h.lose (loses_dropComments code)
  · exact h

end

end X64Backend.Balance

namespace X64Backend.Select

open Asm Code Balance List

variable {room : Nat}

theorem computing_mark? : Computing fun x => mark? x = none where
  comment _ := rfl
  movAbs _ _ := rfl
  mov _ _ := rfl
  lea _ _ := rfl
  cmp _ _ := rfl
  set _ := rfl
  arith _ _ _ := rfl
  imul _ _ := rfl
  imul3 _ _ _ := rfl
  shl _ _ := rfl
  dividend _ := rfl
  cqo := rfl
  idiv _ := rfl

theorem marks_passArgs (args : List Operand) : marks (passArgs args) =
    List.replicate (args.length - MachineReg.arguments.length) .push := by
  have hpushes : ∀ pushed : List Operand,
      marks (pushed.map Instr.push) = List.replicate pushed.length .push := by
    intro pushed
    induction pushed with
    | nil => rfl
    | cons a rest ih =>
      rw [map_cons, marks_cons, ih]
      rfl
  unfold passArgs
  rw [marks_append, ← map_reverse, hpushes, length_reverse, length_drop]
  refine append_right_eq_self.mpr (marks_eq_nil fun x hx => ?_)
  obtain ⟨⟨r, a⟩, hra, rfl⟩ := mem_map.mp (mem_reverse.mp hx)
  have hplain : ∀ q ∈ MachineReg.arguments, isPointer (.machine q) = false := by decide
  simp [mark?, hplain r (of_mem_zip hra).1]

theorem levels_pushes {d : Nat} (k : Nat) (h : d + k ≤ room) :
    Levels room d (List.replicate k .push) (d + k) := by
  induction k generalizing d with
  | zero => exact .nil d
  | succ k ih =>
    have hrest := ih (d := d + 1) (by omega)
    rw [Nat.add_right_comm, Nat.add_assoc] at hrest
    exact .cons (.push (by omega)) hrest

/-- The words that are taken for arguments are given back behind the call, which stands at an
even level. -/
theorem levels_padded {pushed : Nat} (target : Operand) (hroom : pushed + pushed % 2 ≤ room) :
    Levels room 0 (marks (if pushed % 2 = 0 then [] else [.arith .sub (.reg .rsp) (.imm 8)]) ++
      List.replicate pushed .push ++ marks [.call target] ++
      marks (if pushed + pushed % 2 = 0 then []
        else [.arith .add (.reg .rsp) (.imm (8 * Int64.ofNat (pushed + pushed % 2)))])) 0 := by
  have hpadding : Levels room 0
      (marks (if pushed % 2 = 0 then [] else [.arith .sub (.reg .rsp) (.imm 8)])) (pushed % 2) := by
    split
    next heven =>
      rw [heven]
      exact .nil 0
    next hodd =>
      have hone : pushed % 2 = 0 + 1 := by omega
      have htake : Step room 0 (.take 8) (0 + 1) := .take (k := 1) (by omega)
      rw [hone]
      exact .cons htake (.nil _)
  have hpushes : Levels room (pushed % 2) (List.replicate pushed .push) (pushed % 2 + pushed) :=
    levels_pushes pushed (by omega)
  have hcall : Levels room (pushed % 2 + pushed) (marks [.call target]) (pushed % 2 + pushed) :=
    .cons (.call (by omega)) (.nil _)
  have hrelease : Levels room (pushed % 2 + pushed) (marks (if pushed + pushed % 2 = 0 then []
      else [.arith .add (.reg .rsp) (.imm (8 * Int64.ofNat (pushed + pushed % 2)))])) 0 := by
    rw [Nat.add_comm (pushed % 2)]
    split
    next hnone =>
      rw [hnone]
      exact .nil 0
    next =>
      have hgive : Step room (0 + (pushed + pushed % 2)) _ 0 := .give 0 (pushed + pushed % 2)
      rw [Nat.zero_add] at hgive
      exact .cons hgive (.nil 0)
  exact ((hpadding.append hpushes).append hcall).append hrelease

theorem levels_callCode (target : Operand) {args : List Operand} {result : Option Name}
    (hroom : stackWords args.length ≤ room)
    (hresult : ∀ n, result = some n → isPointer (.ofName n) = false) :
    Levels room 0 (marks (callCode target args result)) 0 := by
  have hpadded := levels_padded target hroom
  cases result with
  | none =>
    simp only [callCode, marks_append, marks_passArgs, append_nil]
    exact hpadded
  | some n =>
    have hkeep : marks [Instr.copy (.ofName n) .rax] = [] := by
      simp [Instr.copy, mark?, hresult n rfl]
    simp only [callCode, marks_append, marks_passArgs, hkeep, append_nil]
    exact hpadded

/-- The code of a statement begins and ends at level zero. -/
theorem StmtCode.levels {own : Owner} {func : Name} {s : Stmt Expr} {code : List Instr}
    (h : StmtCode (Consists fun x => mark? x = none) own func s code)
    (htemps : ∀ t ∈ s.temps, isPointer (.ofName t) = false)
    (hroom : stackWords (Generate.passed s) ≤ room) : Levels room 0 (marks code) 0 := by
  have hcontrol : Levels room 0 [.control] 0 := .cons .control (.nil 0)
  cases h with
  | @move dest src t h =>
    have hdest : mark? (.mov (.reg (.ofName dest)) t.result) = none := by
      simp [mark?, htemps dest mem_cons_self]
    simp only [marks_append, marks_eq_nil (h.forall_code computing_mark?), marks_cons, hdest]
    exact .nil 0
  | store hm h =>
    simp only [marks_append, marks_eq_nil (hm.forall_code computing_mark?),
      marks_eq_nil h.forall_code]
    exact .nil 0
  | call result htarget hargs =>
    simp only [marks_append, marks_cons, marks_eq_nil (htarget.forall_code computing_mark?),
      marks_eq_nil (hargs.forall_code computing_mark?), computing_mark?.comment,
      Option.toList_none, nil_append, marks_nil, append_nil]
    rw [Generate.passed, ← hargs.length_eq] at hroom
    refine levels_callCode _ hroom ?_
    rintro n rfl
    exact htemps n (mem_append_right _ mem_cons_self)
  | jump l => exact hcontrol
  | label l => exact hcontrol
  | compare target hop hx hy =>
    simp only [marks_append, marks_cons, marks_eq_nil hx, marks_eq_nil hy.forall_code]
    exact hcontrol
  | test target hx =>
    simp only [marks_append, marks_cons, marks_eq_nil (hx.forall_code computing_mark?)]
    exact hcontrol
  | leave => exact hcontrol
  | ret h =>
    simp only [marks_append, marks_cons, marks_eq_nil (h.forall_code computing_mark?)]
    exact hcontrol

theorem levels_coverBody {func : Name} {body : List NodeStmt} {code : List Instr} {memo : Memo}
    (h : (coverBody func body).run.run .empty = (.ok code, memo))
    (htemps : ∀ s ∈ body, ∀ t ∈ s.plain.temps, isPointer (.ofName t) = false)
    (hroom : ∀ s ∈ body, stackWords (Generate.passed s.plain) ≤ room) :
    Levels room 0 (marks code) 0 := by
  obtain ⟨own, codes, rfl, hcodes⟩ := exists_codes_of_coverBody computing_mark?.rules id
    (Q := fun s => (∀ t ∈ s.temps, isPointer (.ofName t) = false) ∧
      stackWords (Generate.passed s) ≤ room) (fun s hs => ⟨htemps s hs, hroom s hs⟩) h
  rw [marks_append]
  refine Levels.append ?_ (.cons .control (.nil 0))
  clear h htemps hroom
  induction hcodes with
  | nil => exact .nil 0
  | cons hcode _ ih =>
    obtain ⟨plain, ⟨hplain, hwords⟩, hcode⟩ := hcode
    rw [flatten_cons, marks_append]
    exact (hcode.levels hplain hwords).append ih

end X64Backend.Select

namespace X64Backend.Generate

open Asm Code Select Alloc Balance

/-- A temporary with a name that it may have is no pointer. -/
theorem not_isPointer_of_checkTemp {func t : Name} (h : checkTemp func t = .ok ()) :
    isPointer (.ofName t) = false := by
  rw [(marks_of_checkTemp h).1]
  rfl

section

variable {room : Nat} {bare : Bool} {allocator : Allocator} {fn : Func NodeStmt}

theorem marks_argumentMoves {args : List Name}
    (h : ∀ a ∈ args, isPointer (.ofName a) = false) : marks (argumentMoves args) = [] := by
  refine marks_eq_nil fun x hx => ?_
  obtain ⟨⟨a, i⟩, ha, rfl⟩ := List.mem_map.mp hx
  have hmem := List.mem_of_getElem? (List.mem_zipIdx_iff_getElem?.mp ha)
  simp [mark?, h a hmem]

theorem levels_selected {code : List Instr} {supply : Supply}
    (htemps : ∀ t ∈ (fn.map NodeStmt.plain).temps, checkTemp fn.name t = .ok ())
    (hroom : ∀ s ∈ fn.body, stackWords (passed s.plain) ≤ room)
    (h : selected bare fn = .ok (code, supply)) : Levels room 0 (marks code) 0 := by
  obtain ⟨body, memo, hrun, htidy, _⟩ := exists_of_selected h
  have hpointer : ∀ t, (t ∈ fn.args ∨ ∃ s ∈ fn.body, t ∈ s.plain.temps) →
      isPointer (.ofName t) = false :=
    fun t ht => not_isPointer_of_checkTemp (htemps t (mem_temps.mpr ht))
  refine Levels.tidy ?_ htidy
  rw [marks_append, marks_argumentMoves fun a ha => hpointer a (.inl ha)]
  exact levels_coverBody hrun (fun s hs t ht => hpointer t (.inr ⟨s, hs, ht⟩)) hroom

/-- The code of a function has levels before its frame is put around. -/
theorem levels_unframed {B : Shape} {result : Allocated} (hsuits : Suits B fn)
    (hroom : ∀ s ∈ fn.body, stackWords (passed s.plain) ≤ room)
    (h : unframed bare allocator fn = .ok result) :
    Levels room 0 (marks result.code) 0 := by
  obtain ⟨code, supply, result', hcode, hallocated, _, htidy⟩ := exists_of_unframed h
  have hlevels := levels_selected (fun t ht => hsuits.temps ht) hroom hcode
  refine Levels.tidy ?_ htidy
  rwa [marks_allocated (hsuits.selected hcode) hlevels.frame_not_mem hallocated]

end

end X64Backend.Generate
