import X64Backend.Proofs.Alloc.Allocation
import X64Backend.Proofs.Meaning.Mirror
import X64Backend.Proofs.Select.Shapes

/-! # The shape of generated functions

Selected code names temporaries, issued registers and the machine's own. Whichever way
registers are allocated, what is left of them are registers of the palette and slots that
the frame has room for.
-/

namespace X64Backend

open Asm List

/-- Tidying keeps the shape of code. -/
theorem Asm.Shape.Code.tidy {S : Shape} {bare : Bool} {code out : List Instr}
    (h : S.Code code) (hout : Tidy.tidy bare code = .ok out) : S.Code out := by
  refine Tidy.forall_mem_tidy ?_ h hout
  intro c l l' hjump
  cases hjump with
  | jump _ hc => exact .jump l' hc

namespace Alloc

/-! ## Before the first round -/

section

variable {B : Shape} {issued : Nat} {p : Name → Prop} {code : List Instr}

theorem reg_machine {q : MachineReg} (hsp : q ≠ .rsp) (hbp : q ≠ .rbp) :
    (between B ∅ issued fun _ => True).reg (.machine q) := by
  refine ⟨workable_machine hsp hbp, ?_, rfl, trivial⟩
  intro j hj
  cases hj

theorem reg_saved (q : MachineReg) :
    (between B ∅ issued fun _ => True).reg (.saved (.machine q)) := by
  refine ⟨workable_saved q, ?_, rfl, trivial⟩
  intro j hj
  exact absurd ⟨q, congrArg Reg.name hj.symm⟩ (not_savedName_issued j)

/-- Code is ready for the first round when the moves that keep registers are around it. -/
theorem between_keepCalleeSaved (h : (between B ∅ issued (¬ SavedName ·)).Code code) :
    Between B ∅ issued (keepCalleeSaved code) where
  code := by
    have hpointers : ∀ q ∈ MachineReg.calleeSaved, q ≠ .rsp ∧ q ≠ .rbp := by decide
    intro x hx
    simp only [keepCalleeSaved, mem_append, mem_map, mem_singleton] at hx
    rcases hx with ((⟨q, hq, rfl⟩ | hx) | ⟨q, hq, rfl⟩) | rfl
    · exact .inr ⟨.copy (reg_saved q) (reg_machine (hpointers q hq).1 (hpointers q hq).2), rfl⟩
    · exact .inl (h x hx)
    · exact .inr ⟨.copy (reg_machine (hpointers q hq).1 (hpointers q hq).2) (reg_saved q), rfl⟩
    · exact .inl (.comment _)
  dense := dense_empty
  names h := by simp at h

end

/-! ## A slot for every register -/

namespace Stack

/-- A register that gets a slot. -/
def NeedsSlot (r : Reg) : Prop := r.isMachine = false ∧ r ≠ .rip

theorem foldl_slots (rs : List Reg) {slots : Slots} (h : Dense slots) :
    ∃ slots' : Slots, rs.foldl (fun slots r =>
        if r.isMachine || r = .rip || slots.contains r.name then slots
        else slots.insert r.name (slots.size + 1)) slots = slots' ∧ Dense slots' ∧
      ∀ n : Name, slots'[n]? = none ↔
        slots[n]? = none ∧ ∀ r ∈ rs, NeedsSlot r → r.name ≠ n := by
  induction rs generalizing slots with
  | nil => exact ⟨slots, rfl, h, fun n => by simp⟩
  | cons r rest ih =>
    rw [foldl_cons]
    split
    next hskip =>
      obtain ⟨slots', hfold, hdense, hnone⟩ := ih h
      refine ⟨slots', hfold, hdense, fun n => ?_⟩
      rw [hnone, forall_mem_cons]
      refine and_congr_right fun hn => (and_iff_right ?_).symm
      rintro ⟨hmachine, hrip⟩ rfl
      rw [hmachine, Std.TreeMap.contains_eq_isSome_getElem?, hn] at hskip
      simp [hrip] at hskip
    next hnew =>
      simp only [Bool.or_eq_true, decide_eq_true_eq, not_or, Bool.not_eq_true,
        Std.TreeMap.contains_eq_isSome_getElem?, Option.isSome_eq_false_iff,
        Option.isNone_iff_eq_none] at hnew
      obtain ⟨⟨hmachine, hrip⟩, hfree⟩ := hnew
      obtain ⟨slots', hfold, hdense, hnone⟩ := ih (h.insert hfree).1
      refine ⟨slots', hfold, hdense, fun n => ?_⟩
      rw [hnone, forall_mem_cons, getElem?_insert_slots, ← and_assoc]
      refine and_congr_left fun _ => ?_
      by_cases heq : r.name = n
      · simp [heq, NeedsSlot, hmachine, hrip]
      · simp [heq]

/-- The slots have numbers without gaps, and just the registers that need them have one. -/
theorem slotsOf_spec (code : List Instr) : Dense (slotsOf code) ∧
    ∀ n : Name, (slotsOf code)[n]? = none ↔
      ∀ x ∈ code, ∀ r ∈ x.namedRegs, NeedsSlot r → r.name ≠ n := by
  obtain ⟨slots, hfold, hdense, hnone⟩ := foldl_slots (code.flatMap Instr.namedRegs) dense_empty
  have hslots : slotsOf code = slots := hfold
  rw [hslots]
  refine ⟨hdense, fun n => ?_⟩
  rw [hnone, forall_mem_flatMap]
  simp

end Stack

section

variable {B : Shape} {issued : Nat} {code : List Instr}

/-- The shape of code whose registers, if they need slots, are named in a list. -/
abbrev naming (B : Shape) (issued : Nat) (code : List Instr) : Shape :=
  (between B ∅ issued fun _ => True).having fun r =>
    Stack.NeedsSlot r → ∃ x ∈ code, r ∈ x.namedRegs

theorem code_naming (h : (between B ∅ issued fun _ => True).Code code) :
    (naming B issued code).Code code :=
  fun x hx => (h x hx).having fun _ hr _ => ⟨x, hx, hr⟩

theorem scratch_slotsOf (h : (between B ∅ issued fun _ => True).Code code) :
    Stack.Scratch (naming B issued code) (Stack.slotsOf code) := by
  have hmachine : ∀ q : MachineReg, (Stack.slotsOf code)[(Reg.machine q).name]? = none := by
    intro q
    rw [(Stack.slotsOf_spec code).2]
    rintro x hx r hr ⟨hne, hrip⟩
    rcases (h x hx).reg_of_named hr with hr | ⟨q', rfl⟩ | rfl
    · refine hr.1.name_ne (proper_machine q) ?_
      rintro rfl
      cases hne
    · cases hne
    · exact absurd rfl hrip
  have hscratch : ∀ q : MachineReg, q ≠ .rsp → q ≠ .rbp →
      ((naming B issued code).spilling (Stack.slotsOf code)).reg (.machine q) := by
    intro q hsp hbp
    refine ⟨⟨reg_machine hsp hbp, ?_⟩, hmachine q⟩
    rintro ⟨hne, _⟩
    cases hne
  refine ⟨⟨fun h => not_reg_rip h.1, ?_, hmachine⟩, ?_⟩
  · rw [(Stack.slotsOf_spec code).2]
    rintro x hx r hr ⟨hne, hrip⟩
    rcases (h x hx).reg_of_named hr with hr | ⟨q', rfl⟩ | rfl
    · exact hr.1.name_ne proper_rip hrip
    · cases hne
    · exact absurd rfl hrip
  · rintro _ (rfl | rfl | rfl) <;> exact hscratch _ (by decide) (by decide)

/-- When every register that needs a slot has one, the palette is left. -/
theorem spilling_slotsOf_le (B : Shape) (issued : Nat) (code : List Instr) :
    ((naming B issued code).spilling (Stack.slotsOf code)).Le
      (finished B (Stack.slotsOf code).size) where
  reg := by
    rintro r ⟨⟨⟨hwork, _⟩, hnamed⟩, hnone⟩
    cases r with
    | machine q => exact ⟨q, hwork.mem_palette, rfl⟩
    | rip => exact absurd rfl hwork.rip
    | abstract n =>
      have hneeds : Stack.NeedsSlot (.abstract n) := ⟨rfl, fun h => nomatch h⟩
      obtain ⟨x, hx, hr⟩ := hnamed hneeds
      exact absurd rfl (((Stack.slotsOf_spec code).2 _).mp hnone x hx _ hr hneeds)
  frame := by
    rintro d ((hd | ⟨n, k, hn, _⟩) | ⟨r, k, _, hk, rfl⟩)
    · exact .inl hd
    · simp at hn
    · have hdense := (Stack.slotsOf_spec code).1
      exact .inr ⟨k, hdense.pos hk, hdense.le hk, rfl⟩
  symbol h := h
  stack h := h

/-- Putting registers on the stack goes through. -/
theorem allocateOnStack_spec (supply : Supply)
    (h : (between B ∅ issued fun _ => True).Code code) :
    ∃ result, allocateOnStack supply code = .ok result ∧
      (finished B result.slots).Code result.code := by
  have hinstr : ∀ x ∈ code, ∃ out, Stack.instr (Stack.slotsOf code) x = .ok out ∧
      (finished B (Stack.slotsOf code).size).Code out := by
    intro x hx
    obtain ⟨out, hout, hshape⟩ := Stack.instr_shape (scratch_slotsOf h) (code_naming h x hx)
    exact ⟨out, hout, hshape.mono (spilling_slotsOf_le B issued code)⟩
  unfold allocateOnStack
  dsimp only
  cases hres : code.mapM (Stack.instr (Stack.slotsOf code)) with
  | error d =>
    obtain ⟨x, hx, hfail⟩ := exists_of_mapM_eq_error hres
    obtain ⟨out, hout, _⟩ := hinstr x hx
    rw [hout] at hfail
    cases hfail
  | ok codes =>
    refine ⟨⟨codes.flatten, (Stack.slotsOf code).size, 1, supply⟩, rfl, Shape.code_flatten ?_⟩
    intro out hout
    obtain ⟨x, hx, heq⟩ := exists_mem_of_forall₂ (mapM_eq_ok.mp hres) hout
    obtain ⟨out', hout', hshape⟩ := hinstr x hx
    rw [heq] at hout'
    rwa [Except.ok.inj hout']

end

end Alloc

namespace Generate

open Alloc Select Code

variable {bare : Bool} {fn : Func NodeStmt}

section

variable {B : Shape} {n : Nat}

/-- The shape of selected code without issued registers. -/
def selecting (B : Shape) : Shape :=
  { B with reg := fun r => Workable r ∧ (∀ j, r ≠ .issued j) ∧ ¬ SavedName r.name }

theorem worksOnMachine_selecting (B : Shape) : WorksOnMachine (selecting B) := by
  intro q hsp hbp
  refine ⟨workable_machine hsp hbp, ?_, ?_⟩
  · intro j hj
    cases hj
  · rintro ⟨k, hk⟩
    cases ((proper_machine q).name_inj (Reg.ofName_saved (.machine k))).mp hk

/-- A temporary may have the name of an abstract register that is neither issued nor saved. -/
theorem marks_of_checkTemp {func t : Name} (h : checkTemp func t = .ok ()) :
    Reg.ofName t = .abstract t ∧ Reg.issuedMark.isPrefixOf t = false ∧
      Reg.savedMark.isPrefixOf t = false := by
  unfold checkTemp at h
  split at h
  · cases h
  · cases h
  next n hn =>
    obtain rfl := Reg.eq_of_ofName_eq_abstract hn
    split at h
    · cases h
    next hmarks =>
      simp only [Bool.or_eq_true, not_or, Bool.not_eq_true] at hmarks
      exact ⟨hn, hmarks⟩

/-- A temporary with a name that it may have is a register to work on. -/
theorem reg_of_checkTemp {func t : Name} (h : checkTemp func t = .ok ()) :
    (selecting B).reg (.ofName t) := by
  have hproper := Reg.proper_ofName t
  obtain ⟨hname, hissued, hsaved⟩ := marks_of_checkTemp h
  rw [hname] at hproper ⊢
  refine ⟨workable_abstract hproper, ?_, ?_⟩
  · intro j hj
    obtain rfl := Reg.abstract.inj hj
    rw [List.isPrefixOf_iff_prefix.mpr (prefix_append _ _)] at hissued
    cases hissued
  · rintro ⟨q, hq⟩
    obtain rfl : t = Reg.savedMark ++ (Reg.machine q).name := hq
    rw [List.isPrefixOf_iff_prefix.mpr (prefix_append _ _)] at hsaved
    cases hsaved

theorem issuing_selecting_le (B : Shape) (n : Nat) :
    ((selecting B).issuing (· < n)).Le (between B ∅ n (¬ SavedName ·)) where
  reg := by
    rintro r (⟨hwork, hissued, hsaved⟩ | ⟨k, hk, rfl⟩)
    · exact ⟨hwork, fun j hj => absurd hj (hissued j), rfl, hsaved⟩
    · refine ⟨workable_issued k, fun j hj => ?_, rfl, not_savedName_issued k⟩
      rwa [← Reg.issued_inj.mp hj]
  frame h := .inl h
  symbol h := h
  stack h := h

end

theorem admits_of_temps {S : Shape} {e : Expr} (htemps : ∀ t ∈ e.temps, S.reg (.ofName t))
    (hsymbols : ∀ n ∈ symbols e, S.symbol (.ofName n)) : Admits S e := by
  induction e with
  | const v | absent => trivial
  | name n => exact hsymbols n mem_cons_self
  | temp t => exact htemps t mem_cons_self
  | mem a ih => exact ih htemps hsymbols
  | binary op l r ihl ihr =>
    obtain ⟨hlt, hrt⟩ := forall_mem_append.mp htemps
    obtain ⟨hls, hrs⟩ := forall_mem_append.mp hsymbols
    exact ⟨ihl hlt hls, ihr hrt hrs⟩

/-- A statement has the shape that its temporaries and symbols have, if there is room for the
arguments of a call. -/
theorem admitsStmt_of_temps {S : Shape} {s : Stmt Expr} (htemps : ∀ t ∈ s.temps, S.reg (.ofName t))
    (hsymbols : ∀ n ∈ stmtSymbols s, S.symbol (.ofName n))
    (hcall : ∀ f args result, s = .call f args result →
      S.stack 8 ∧ S.stack (8 * Int64.ofNat (stackWords args.length))) : AdmitsStmt S s := by
  cases s with
  | move dest src =>
    obtain ⟨hdest, hsrc⟩ := forall_mem_cons.mp htemps
    exact ⟨hdest, admits_of_temps hsrc hsymbols⟩
  | store a src =>
    obtain ⟨hat, hst⟩ := forall_mem_append.mp htemps
    obtain ⟨has, hss⟩ := forall_mem_append.mp hsymbols
    exact ⟨admits_of_temps hat has, admits_of_temps hst hss⟩
  | call f args result =>
    obtain ⟨htemps, hresult⟩ := forall_mem_append.mp htemps
    obtain ⟨hft, hat⟩ := forall_mem_append.mp htemps
    obtain ⟨hfs, has⟩ := forall_mem_append.mp hsymbols
    refine ⟨admits_of_temps hft hfs, ?_, ?_, hcall f args result rfl⟩
    · grind [admits_of_temps]
    · rintro n rfl
      exact hresult n (Option.mem_toList.mpr rfl)
  | branch cond target => exact admits_of_temps htemps hsymbols
  | ret value =>
    cases value with
    | none => trivial
    | some v => exact admits_of_temps htemps hsymbols
  | jump target | label l | absent => trivial

theorem exists_of_selected {code : List Instr} {supply : Supply}
    (h : selected bare fn = .ok (code, supply)) :
    ∃ body memo, (coverBody fn.name fn.body).run.run .empty = (.ok body, memo) ∧
      Tidy.tidy bare (argumentMoves fn.args ++ body) = .ok code ∧ supply = memo.supply := by
  unfold selected at h
  rcases hrun : (coverBody fn.name fn.body).run Memo.empty with ⟨outcome, memo⟩
  rw [hrun] at h
  obtain ⟨body, hbody, h⟩ := bind_eq_ok.mp h
  obtain ⟨out, htidy, h⟩ := bind_eq_ok.mp h
  obtain ⟨rfl, rfl⟩ := Prod.mk.inj (pure_eq_ok.mp h)
  exact ⟨body, memo, hrun.trans (by rw [hbody]), htidy, rfl⟩

/-- The code of a function without its frame, and the slots that it needs. -/
def unframed (removeComments : Bool) (allocator : Allocator) (fn : Func NodeStmt) :
    Except Defect Allocated := do
  let (code, supply) ← selected removeComments fn
  let result ← allocated allocator fn.returns supply code
  return { result with code := ← Tidy.tidy removeComments result.code }

theorem functionCode_eq_ok {allocator : Allocator} {out : List Instr} :
    functionCode bare allocator fn = .ok out ↔
      ∃ result, unframed bare allocator fn = .ok result ∧
        out = frame bare fn.name fn.args.length result.slots result.code := by
  unfold functionCode unframed
  simp only [bind_eq_ok, pure_eq_ok]
  constructor
  · grind
  · grind

theorem forM_eq_ok {ε α : Type} {f : α → Except ε Unit} {xs : List α} :
    xs.forM f = .ok () ↔ ∀ x ∈ xs, f x = .ok () := by
  induction xs with
  | nil => simp [pure, Except.pure]
  | cons x rest ih =>
    grind [List.forM, bind_eq_ok]

/-- A function has code if its temporaries have names that they may have. -/
theorem function_eq_ok {allocator : Allocator} {code : List Instr} :
    function bare allocator fn = .ok code ↔
      (∀ t ∈ (fn.map NodeStmt.plain).temps, checkTemp fn.name t = .ok ()) ∧
        functionCode bare allocator fn = .ok code := by
  unfold function
  rw [bind_eq_ok, ← forM_eq_ok]
  constructor
  · rintro ⟨_, hforM, h⟩
    split at h
    next code' hcode => exact ⟨hforM, by rw [hcode, pure_eq_ok.mp h]⟩
    next => cases h
  · rintro ⟨hforM, hcode⟩
    exact ⟨(), hforM, by rw [hcode]; rfl⟩

/-- Whether a function gets a frame. -/
def isFramed (argCount slots : Nat) (code : List Instr) : Bool :=
  calls code || slots != 0 || MachineReg.arguments.length < argCount

/-- What stands before a function's code. -/
def prologue (removeComments : Bool) (func : Name) (argCount slots : Nat) (code : List Instr) :
    List Instr :=
  .label func :: (if removeComments then [] else [.comment (func ++ " prologue starts")]) ++
    (if isFramed argCount slots code then [.push (.reg .rbp), .copy .rbp .rsp] else []) ++
    (if frameSlots (calls code) slots != 0 then
      [.arith .sub (.reg .rsp) (.imm (8 * Int64.ofNat (frameSlots (calls code) slots)))] else []) ++
    (if removeComments then [] else [.comment (func ++ " prologue ends")])

/-- What stands behind a function's code. -/
def epilogue (removeComments : Bool) (func : Name) (argCount slots : Nat) (code : List Instr) :
    List Instr :=
  (if removeComments then [] else [.comment (func ++ " epilogue starts")]) ++
    (if isFramed argCount slots code then [.copy .rsp .rbp, .popRbp] else []) ++
    .ret :: (if removeComments then [] else [.comment (func ++ " epilogue ends")])

theorem frame_eq (bare : Bool) (func : Name) (args slots : Nat) (code : List Instr) :
    frame bare func args slots code = prologue bare func args slots code ++ code ++
      epilogue bare func args slots code := by
  simp only [frame, prologue, epilogue, isFramed, append_assoc, cons_append,
    nil_append]
  rfl

/-- A frame consists of its function's label, comments, code and eight other instructions. -/
theorem forall_mem_frame {P : Instr → Prop} {bare : Bool} {func : Name}
    {args slots : Nat} {code : List Instr} (hlabel : P (.label func))
    (hcomment : ∀ t, P (.comment t)) (hreserve : P (.arith .sub (.reg .rsp)
      (.imm (8 * Int64.ofNat (frameSlots (calls code) slots)))))
    (hframe : ∀ x ∈ [.push (.reg .rbp), .copy .rbp .rsp, .copy .rsp .rbp, .popRbp, .ret], P x)
    (hcode : ∀ x ∈ code, P x) : ∀ x ∈ frame bare func args slots code, P x := by
  have hpart : ∀ {b : Bool} {xs : List Instr}, (∀ x ∈ xs, P x) →
      (∀ x ∈ if b then xs else [], P x) ∧ ∀ x ∈ if b then [] else xs, P x := by
    intro b xs h
    cases b with
    | true => exact ⟨h, fun x hx => absurd hx not_mem_nil⟩
    | false => exact ⟨fun x hx => absurd hx not_mem_nil, h⟩
  have hremark (t : Bytes) : ∀ x ∈ [Instr.comment t], P x := forall_mem_singleton.mpr (hcomment t)
  simp only [forall_mem_cons] at hframe
  obtain ⟨hpush, henter, hleave, hpop, hret, hnil⟩ := hframe
  rw [frame_eq, prologue, epilogue]
  simp only [forall_mem_append, forall_mem_cons]
  refine ⟨⟨⟨⟨⟨⟨hlabel, (hpart (hremark _)).2⟩, (hpart ?_).1⟩, (hpart ?_).1⟩, (hpart (hremark _)).2⟩,
    hcode⟩, ⟨(hpart (hremark _)).2, (hpart ?_).1⟩, hret, (hpart (hremark _)).2⟩
  · exact forall_mem_cons.mpr ⟨hpush, forall_mem_singleton.mpr henter⟩
  · exact forall_mem_singleton.mpr hreserve
  · exact forall_mem_cons.mpr ⟨hleave, forall_mem_singleton.mpr hpop⟩

/-- A shape that has room for a function: for its arguments and symbols, and for the arguments
of the calls in it. Temporaries have names that they may have. -/
structure Suits (B : Shape) (fn : Func NodeStmt) : Prop where
  args {i : Nat} (h : i + MachineReg.arguments.length < fn.args.length) :
    B.frame (16 + 8 * Int64.ofNat i)
  temps {t : Name} (h : t ∈ (fn.map NodeStmt.plain).temps) : checkTemp fn.name t = .ok ()
  symbols {s : NodeStmt} (hs : s ∈ fn.body) {n : Name} (hn : n ∈ stmtSymbols s.plain) :
    B.symbol (.ofName n)
  calls {s : NodeStmt} (hs : s ∈ fn.body) {f : Expr} {args : List Expr} {result : Option Name}
    (h : s.plain = .call f args result) :
    B.stack 8 ∧ B.stack (8 * Int64.ofNat (stackWords args.length))

/-- The number of arguments that a statement passes to a function. -/
def passed : Stmt Expr → Nat
  | .call _ args _ => args.length
  | _ => 0

/-- A function with fewer slots and arguments than a bound, and fewer arguments in each of its
calls. -/
structure Within (bound : Nat) (removeComments : Bool) (allocator : Allocator)
    (fn : Func NodeStmt) : Prop where
  slots {result : Allocated} (h : unframed removeComments allocator fn = .ok result) :
    result.slots < bound
  args : fn.args.length < bound
  calls : ∀ s ∈ fn.body, passed s.plain < bound

theorem mem_temps {t : Name} : t ∈ (fn.map NodeStmt.plain).temps ↔
    t ∈ fn.args ∨ ∃ s ∈ fn.body, t ∈ s.plain.temps := by
  rw [Func.temps, mem_eraseDups, mem_append, mem_flatMap]
  refine or_congr Iff.rfl ⟨?_, ?_⟩
  · rintro ⟨plain, hplain, ht⟩
    obtain ⟨s, hs, rfl⟩ := mem_map.mp hplain
    exact ⟨s, hs, ht⟩
  · rintro ⟨s, hs, ht⟩
    exact ⟨s.plain, mem_map_of_mem hs, ht⟩

section

variable {B : Shape} {fn : Func NodeStmt} {bare : Bool} {allocator : Allocator}

theorem Suits.temp (h : Suits B fn) {t : Name}
    (ht : t ∈ fn.args ∨ ∃ s ∈ fn.body, t ∈ s.plain.temps) : (selecting B).reg (.ofName t) :=
  reg_of_checkTemp (h.temps (mem_temps.mpr ht))

/-- The moves of the arguments have the shape that their temporaries and places have. -/
theorem shape_argumentMoves {S : Shape} (hS : WorksOnMachine S) {args : List Name}
    (hregs : ∀ a ∈ args, S.reg (.ofName a)) (hframe : ∀ {i : Nat},
      i + MachineReg.arguments.length < args.length → S.frame (16 + 8 * Int64.ofNat i)) :
    S.Code (argumentMoves args) := by
  intro x hx
  obtain ⟨⟨a, i⟩, ha, rfl⟩ := mem_map.mp hx
  have hi := mem_zipIdx_iff_getElem?.mp ha
  refine .mov (.reg (hregs a (mem_of_getElem? hi)) ?_)
  unfold incoming
  cases hr : MachineReg.arguments[i]? with
  | some r =>
    have hmem := mem_of_getElem? hr
    refine .value (.reg (hS r ?_ ?_))
    · rintro rfl
      revert hmem
      decide
    · rintro rfl
      revert hmem
      decide
  | none =>
    have hle := List.getElem?_eq_none_iff.mp hr
    have hlt := (List.getElem?_eq_some_iff.mp hi).1
    exact .mem (.frame (hframe (by omega)))

/-- Covered code, with the moves of the arguments before it, can be allocated. -/
theorem Suits.covered (h : Suits B fn) {body : List Instr} {memo : Memo}
    (hrun : (coverBody fn.name fn.body).run.run .empty = (.ok body, memo)) :
    (between B ∅ memo.supply.issued (¬ SavedName ·)).Code (argumentMoves fn.args ++ body) := by
  have hbody := shape_coverBody (worksOnMachine_selecting B) hrun fun s hs =>
    admitsStmt_of_temps (fun t ht => h.temp (.inr ⟨s, hs, ht⟩)) (fun n hn => h.symbols hs hn)
      fun f args result hcall => h.calls hs hcall
  have hmoves : (selecting B).Code (argumentMoves fn.args) :=
    shape_argumentMoves (worksOnMachine_selecting B) (fun a ha => h.temp (.inl ha)) h.args
  rw [Shape.code_append]
  exact ⟨hmoves.mono ((Shape.le_issuing _ _).trans (issuing_selecting_le B _)),
    hbody.mono (issuing_selecting_le B _)⟩

/-- So can what tidying makes of it. -/
theorem Suits.selected (h : Suits B fn) {code : List Instr} {supply : Supply}
    (hcode : selected bare fn = .ok (code, supply)) :
    (between B ∅ supply.issued (¬ SavedName ·)).Code code := by
  obtain ⟨body, memo, hrun, htidy, rfl⟩ := exists_of_selected hcode
  exact (h.covered hrun).tidy htidy

theorem finished_of_allocated {returns : Bool} {supply : Supply} {code : List Instr}
    {result : Allocated} (hB : ∀ d, B.frame d → ¬ d < 0)
    (hcode : (between B ∅ supply.issued (¬ SavedName ·)).Code code)
    (hresult : allocated allocator returns supply code = .ok result)
    (hsmall : result.slots < 2 ^ 59) : (finished B result.slots).Code result.code := by
  cases allocator with
  | stack =>
    obtain ⟨result', hresult', hshape⟩ := allocateOnStack_spec supply
      (hcode.mono (between_le (fun _ _ => trivial) (Nat.le_refl _)))
    have heq : allocateOnStack supply code = .ok result := hresult
    rw [hresult'] at heq
    rwa [← Except.ok.inj heq]
  | coalescing =>
    exact finished_of_rounds (between_keepCalleeSaved hcode) hB hresult hsmall

theorem exists_of_unframed {result : Allocated}
    (h : unframed bare allocator fn = .ok result) :
    ∃ code supply result', selected bare fn = .ok (code, supply) ∧
      allocated allocator fn.returns supply code = .ok result' ∧ result.slots = result'.slots ∧
      Tidy.tidy bare result'.code = .ok result.code := by
  obtain ⟨⟨code, supply⟩, hcode, h⟩ := bind_eq_ok.mp h
  obtain ⟨result', hallocated, h⟩ := bind_eq_ok.mp h
  obtain ⟨out, htidy, h⟩ := bind_eq_ok.mp h
  obtain rfl := pure_eq_ok.mp h
  exact ⟨code, supply, result', hcode, hallocated, rfl, htidy⟩

/-- The code of a function is finished code, if it needs few slots. -/
theorem Suits.unframed (h : Suits B fn) (hB : ∀ d, B.frame d → ¬ d < 0) {result : Allocated}
    (hresult : unframed bare allocator fn = .ok result) (hsmall : result.slots < 2 ^ 59) :
    (finished B result.slots).Code result.code := by
  obtain ⟨code, supply, result', hcode, hallocated, hslots, htidy⟩ := exists_of_unframed hresult
  rw [hslots] at hsmall ⊢
  exact (finished_of_allocated hB (h.selected hcode) hallocated hsmall).tidy htidy

end

/-! ## Shapes for any function -/

theorem argument_eq (i : Nat) : 16 + 8 * Int64.ofNat i = Int64.ofNat (16 + 8 * i) := by
  rw [Int64.ofNat_add, Int64.ofNat_mul]
  rfl

theorem not_neg_argument {i : Nat} (h : i < 2 ^ 59) : ¬ 16 + 8 * Int64.ofNat i < 0 := by
  rw [argument_eq, Int64.lt_iff_toInt_lt, Int64.toInt_ofNat_of_lt (by omega)]
  exact Int.not_lt.mpr (Int.natCast_nonneg _)

/-- Displacements from the frame pointer with a property, and any symbols and distances. -/
def framedBy (p : Int64 → Prop) : Shape where
  reg _ := False
  frame := p
  symbol _ := True
  stack _ := True

theorem suits_framedBy {p : Int64 → Prop}
    (hargs : ∀ i, i + MachineReg.arguments.length < fn.args.length → p (16 + 8 * Int64.ofNat i))
    (htemps : ∀ t ∈ (fn.map NodeStmt.plain).temps, checkTemp fn.name t = .ok ()) :
    Suits (framedBy p) fn where
  args {i} hi := hargs i hi
  temps {t} ht := htemps t ht
  symbols _ _ _ := trivial
  calls _ _ _ _ _ := ⟨trivial, trivial⟩

end Generate

end X64Backend
