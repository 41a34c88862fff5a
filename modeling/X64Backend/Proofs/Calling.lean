import X64Backend.Proofs.Generated
import X64Backend.Proofs.Passing

/-! # Caller and callee

A function that is entered finds each argument where its first instructions take it from,
whether the code of a call put it there or the machine did. Behind a call the stack pointer
is where it was before the statement.
-/

namespace X64Backend.Select

open Asm Code Machine List

/-- Arguments where a function finds them when it is entered: registers hold the first ones,
the others stand above the return address. -/
structure Arrived (s : State) (vs : List Int64) : Prop where
  high : (s.get .rsp).toInt + 8 + 8 * (vs.length - 6 : Nat) ≤ stackTop.toInt
  inRegister (i : Nat) (r : MachineReg) (v : Int64) (hr : MachineReg.arguments[i]? = some r)
    (hv : vs[i]? = some v) : s.get (.machine r) = v
  onStack (k : Nat) (v : Int64) (hv : vs[6 + k]? = some v) (a : Int64)
    (ha : a.toInt = (s.get .rsp).toInt + 8 + 8 * k) : s.memory.read a = v

theorem Arrived.of_stacked {s s' : State} {vs pad : List Int64} {back : Int64}
    (h : Stacked s s' ([back] ++ (vs.drop MachineReg.arguments.length ++ pad)))
    (hhigh : (s.get .rsp).toInt ≤ stackTop.toInt)
    (hregs : ∀ (i : Nat) r v, MachineReg.arguments[i]? = some r → vs[i]? = some v →
      s'.get (.machine r) = v) : Arrived s' vs := by
  have hsix : MachineReg.arguments.length = 6 := rfl
  have hrsp := h.rsp
  simp only [length_append, length_cons, length_nil, length_drop, hsix] at hrsp
  refine ⟨by omega, hregs, ?_⟩
  intro k v hv a ha
  refine h.word (k + 1) v ?_ a (by omega)
  have hlt := (List.getElem?_eq_some_iff.mp hv).1
  rw [singleton_append, getElem?_cons_succ, getElem?_append_left, getElem?_drop,
    hsix, hv]
  rw [length_drop, hsix]
  omega

/-- The first instructions of a function with a frame. -/
def entryCode (name : Name) (params : List Name) : List Instr :=
  .label name :: .push (.reg .rbp) :: .copy .rbp .rsp :: Generate.argumentMoves params

/-- A function in a program whose parameters have names of their own that they may have. -/
structure IsCalled (img : Image) (name : Name) (params : List Name) (entry : Nat) : Prop where
  code : img.Holds entry (entryCode name params)
  nodup : params.Nodup
  named : ∀ p ∈ params, p ≠ [] ∧ Generate.checkTemp name p = .ok ()

theorem UserName.of_checkTemp {func t : Name} (hne : t ≠ [])
    (h : Generate.checkTemp func t = .ok ()) : UserName t := by
  obtain ⟨hname, hissued, hsaved⟩ := Generate.marks_of_checkTemp h
  exact ⟨hne, hname, hissued, hsaved⟩

section

variable {img : Image} {ok : State → Instr → Prop} {s : State} {vs : List Int64}

/-- What a parameter is moved from holds the argument, as long as machine registers and memory
are as when the frame was made. -/
theorem Arrived.incoming_value (h : Arrived s vs) (hroom : s.Room 1) {t : State}
    (hregs : ∀ r, r ≠ .rsp → r ≠ .rbp → t.get (.machine r) = s.get (.machine r))
    (hrbp : t.get .rbp = s.get .rsp - 8)
    (hmemory : ∀ a : Int64, (s.get .rsp).toInt ≤ a.toInt → t.memory.read a = s.memory.read a)
    {i : Nat} {v : Int64} (hv : vs[i]? = some v) :
    img.value t (Generate.incoming i) = .ok v := by
  unfold Generate.incoming
  cases hr : MachineReg.arguments[i]? with
  | some r =>
    have hne : ∀ r ∈ MachineReg.arguments, r ≠ .rsp ∧ r ≠ .rbp := by decide
    obtain ⟨hrsp, hrbp⟩ := hne r (mem_of_getElem? hr)
    rw [Image.value, hregs r hrsp hrbp, h.inRegister i r v hr hv]
  | none =>
    have hsix : MachineReg.arguments.length = 6 := rfl
    have hle : 6 ≤ i := by
      have := List.getElem?_eq_none_iff.mp hr
      omega
    have hlt := (List.getElem?_eq_some_iff.mp hv).1
    have hhigh := h.high
    have hlow := hroom.low
    have haligned := hroom.aligned
    have height : (s.get .rsp - 8).toInt = (s.get .rsp).toInt - 8 :=
      toInt_sub_eight (n := 0) hroom
    rw [dataStart_toInt] at hlow
    rw [stackTop_toInt] at hhigh
    have hoffset : (16 + 8 * Int64.ofNat (i - 6)).toInt = 16 + 8 * (i - 6 : Nat) := by
      rw [toInt_add_of_fits, toInt_eight_mul (by omega)]
      · rfl
      all_goals
        rw [toInt_eight_mul (by omega), show (16 : Int64).toInt = 16 from rfl]
        omega
    have haddress : (s.get .rsp - 8 + 0 + (16 + 8 * Int64.ofNat (i - 6))).toInt =
        (s.get .rsp).toInt + 8 + 8 * (i - 6 : Nat) := by
      rw [Int64.add_zero, toInt_add_of_fits, hoffset, height]
      · omega
      all_goals
        rw [hoffset, height]
        omega
    refine value_mem_eq_ok.mpr ⟨_, rfl, ?_, ?_⟩
    · show State.checkAddress (t.get .rbp + 0 + (16 + 8 * Int64.ofNat (i - 6))) = .ok ()
      rw [checkAddress_eq_ok_iff, hrbp, haddress, dataStart_toInt, stackTop_toInt]
      omega
    · show t.memory.read (t.get .rbp + 0 + (16 + 8 * Int64.ofNat (i - 6))) = v
      rw [hrbp, hmemory _ (by rw [haddress]; omega)]
      exact h.onStack (i - 6) v (by rwa [Nat.add_sub_of_le hle]) _ haddress

/-- The moves of parameters leave in each the value of what it is moved from, if that depends on
machine registers and memory only. -/
theorem argumentMoves_run {params : List Name} (hlength : params.length = vs.length)
    (hnodup : params.Nodup) (hnamed : ∀ p ∈ params, Reg.ofName p = .abstract p)
    (hok : ∀ (i : Nat) v, vs[i]? = some v → ∀ d t,
      (∀ r, ¬ (∃ n, r = .abstract n) → t.get r = s.get r) → t.memory = s.memory →
      ok t (.mov (.reg d) (Generate.incoming i)))
    (hvalue : ∀ (i : Nat) v, vs[i]? = some v → ∀ t,
      (∀ r, ¬ (∃ n, r = .abstract n) → t.get r = s.get r) → t.memory = s.memory →
      img.value t (Generate.incoming i) = .ok v) :
    ∃ s', Seq img ok (Generate.argumentMoves params) s s' ∧
      List.Forall₂ (fun p v => s'.get (.ofName p) = v) params vs := by
  let pairs : List (Reg × Operand × Int64) :=
    (params.zip vs).zipIdx.map fun p => (.ofName p.1.1, Generate.incoming p.2, p.1.2)
  have hzip : (params.zip vs).map Prod.fst = params := map_fst_zip (Nat.le_of_eq hlength)
  have hmoves : Generate.argumentMoves params = pairs.map fun p => .mov (.reg p.1) p.2.1 := by
    rw [Generate.argumentMoves]
    conv_lhs => rw [← hzip, zipIdx_map, map_map]
    rw [map_map]
    rfl
  have hmem : ∀ p ∈ pairs, ∃ i n v, params[i]? = some n ∧ vs[i]? = some v ∧
      p = (.ofName n, Generate.incoming i, v) := by
    grind
  have hdests : ∀ p ∈ pairs, ∃ n, p.1 = .abstract n := by
    grind
  have hdistinct : (pairs.map Prod.fst).Nodup := by
    have hfst : pairs.map Prod.fst = params.map Reg.ofName := by
      rw [map_map]
      conv_rhs => rw [← hzip, ← zipIdx_map_fst 0 (params.zip vs), map_map, map_map]
      rfl
    rw [hfst]
    refine hnodup.map_on fun p hp q hq heq => ?_
    rw [hnamed p hp, hnamed q hq] at heq
    exact Reg.abstract.inj heq
  obtain ⟨s', hseq, hloaded, _, _⟩ := loads_run (fun r => ∃ n, r = .abstract n) hdests
    (fun p hp t ht hmemory => by
      obtain ⟨i, n, v, _, hv, rfl⟩ := hmem p hp
      exact hok i v hv _ t ht hmemory)
    (fun p hp t ht hmemory => by
      obtain ⟨i, n, v, _, hv, rfl⟩ := hmem p hp
      exact hvalue i v hv t ht hmemory) hdistinct
  refine ⟨s', hmoves ▸ hseq, forall₂_iff_get.mpr ⟨hlength, fun i hp hv => ?_⟩⟩
  refine hloaded (_, Generate.incoming i, _) (mem_map.mpr ⟨((_, _), i), ?_, rfl⟩)
  rw [mem_zipIdx_iff_getElem?, getElem?_zip_eq_some]
  exact ⟨getElem?_eq_getElem hp, getElem?_eq_getElem hv⟩

/-- The first instructions of a function leave each argument in its parameter. -/
theorem Arrived.entryCode_run (h : Arrived s vs) (img : Image) (hroom : s.Room 1)
    (hok : ∀ s x, ok s x) (name : Name) {params : List Name} (hlength : params.length = vs.length)
    (hnodup : params.Nodup) (hnamed : ∀ p ∈ params, UserName p) :
    ∃ s', Seq img ok (entryCode name params) s s' ∧
      List.Forall₂ (fun p v => s'.get (.ofName p) = v) params vs := by
  -- the state in which the frame has been made
  let framed : State := ((s.advance.advance.pushed (s.get .rbp)).advance).set .rbp (s.get .rsp - 8)
  have hpush : img.exec s.advance.advance (.push (.reg .rbp)) =
      .ok (s.advance.advance.pushed (s.get .rbp)) :=
    push_eq_pushed (n := 0) hroom.advance.advance _
  have hcopy : img.exec (s.advance.advance.pushed (s.get .rbp)).advance (.copy .rbp .rsp) =
      .ok framed := by
    show Except.ok ((s.advance.advance.pushed (s.get .rbp)).advance.set .rbp _) = _
    rw [State.get_advance, State.rsp_pushed]
    rfl
  have hregs : ∀ r, r ≠ .rsp → r ≠ .rbp → framed.get (.machine r) = s.get (.machine r) := by
    grind [State.get_set_of_ne, Reg.machine.inj, State.get_advance, State.get_pushed]
  have hmemory : ∀ a : Int64, (s.get .rsp).toInt ≤ a.toInt →
      framed.memory.read a = s.memory.read a := fun a ha =>
    (Stacked.push (n := 0) hroom.advance.advance (s.get .rbp)).outside a (.inr ha)
  have hvalue : ∀ (i : Nat) v, vs[i]? = some v → ∀ t,
      (∀ r, ¬ (∃ n, r = .abstract n) → t.get r = framed.get r) → t.memory = framed.memory →
      img.value t (Generate.incoming i) = .ok v := by
    intro i v hv t ht hmem
    have hmachine (r : MachineReg) : t.get (.machine r) = framed.get (.machine r) :=
      ht _ (fun ⟨n, hn⟩ => by cases hn)
    refine h.incoming_value hroom ?_ ?_ ?_ hv
    · exact fun r hrsp hrbp => (hmachine r).trans (hregs r hrsp hrbp)
    · exact (hmachine .rbp).trans (State.get_set_self _ _ _)
    · exact fun a ha => by rw [hmem, hmemory a ha]
  obtain ⟨s', hseq, hparams⟩ := argumentMoves_run hlength hnodup
    (fun p hp => (hnamed p hp).ofName_eq) (fun _ _ _ _ _ _ _ => hok _ _) hvalue
  exact ⟨s', .cons rfl (hok _ _) rfl (.cons rfl (hok _ _) hpush (.cons rfl (hok _ _) hcopy hseq)),
    hparams⟩

end

/-- What a call goes to in a state: the function that a name stands for, or code by its
address. -/
inductive LeadsTo (img : Image) (s : State) (entry : Nat) : Expr → Prop
  | symbol {n : Name} (hbuiltin : Builtin.ofName? n = none)
      (hlabel : img.labels[n]? = some entry) : LeadsTo img s entry (.name n)
  | address {e : Expr} {v : Int64} (hname : ∀ n, e ≠ .name n)
      (hv : (plainSetting img).value s e = some v) (hentry : v.toInt = 8 * entry) :
      LeadsTo img s entry e

/-- A state in which a function can be called with arguments that are worth some words: there
is room on the stack, and no word that is read is one that arguments are pushed to. -/
structure CanCall (img : Image) (s : State) (entry : Nat) (f : Expr) (args : List Expr)
    (vs : List Int64) : Prop where
  leads : LeadsTo img s entry f
  values : List.Forall₂ (fun e v => (plainSetting img).value s e = some v) args vs
  apart : ∀ e ∈ f :: args, ∀ a ∈ (plainSetting img).reads s e, ¬ Pushes s args.length a
  room : s.Room (2 + stackWords args.length)

section

variable {img : Image} {own : Owner} {s : State} {entry : Nat} {lo hi : Int}

theorem IsOperand.ne_symbol {P : Owner → Expr → Tile Reg → Prop} {e : Expr} {t : Tile Operand}
    (h : IsOperand P own e t) (n : Name) : t.result ≠ .const (.sym n) := by
  cases h with
  | imm _ => simp [Operand.imm]
  | place h => cases h <;> simp

theorem call_of_value {target : Operand} {v : Int64} (hne : ∀ n, target ≠ .const (.sym n))
    (hv : img.value s target = .ok v) (hentry : v.toInt = 8 * entry)
    (hsize : entry < img.code.size) : img.call s target = Image.enter s entry := by
  have hcall : img.call s target = Outcome.use s (img.value s target) fun v =>
      if v % 8 ≠ 0 || v < 0 || (img.code.size : Int) ≤ (v / 8).toInt then .error (.badTarget v, s)
      else Image.enter s (v / 8).toInt := by
    cases target with
    | const c =>
      cases c with
      | sym n => exact absurd rfl (hne n)
      | imm c => rfl
    | _ => rfl
  have haligned : v % 8 = 0 := toInt_emod_eight.mpr (by omega)
  have hpositive : ¬ v < 0 := by
    rw [Int64.lt_iff_toInt_lt, show (0 : Int64).toInt = 0 from rfl]
    omega
  have hposition : (v / 8).toInt = entry := by
    have hlt := v.toInt_lt
    rw [Int64.toInt_div, show (8 : Int64).toInt = 8 from rfl, hentry, Int.tdiv_eq_ediv_of_nonneg,
      Int.mul_ediv_cancel_left _ (by decide)]
    · exact Int.bmod_eq_of_le (by omega) (by omega)
    · omega
  have hfits : ¬ (img.code.size : Int) ≤ entry := by omega
  rw [hcall, hv]
  simp only [Outcome.use, haligned, hpositive, hfits, ne_eq, not_true_eq_false, decide_false,
    Bool.or_false, Bool.false_eq_true, if_false, hposition]

theorem LeadsTo.worth {f : Expr} (h : LeadsTo img s entry f) (hname : ∀ n, f ≠ .name n) :
    ∃ v, (plainSetting img).value s f = some v ∧ v.toInt = 8 * entry := by
  cases h with
  | symbol _ _ => exact absurd rfl (hname _)
  | @address _ v _ hv hentry => exact ⟨v, hv, hentry⟩

/-- The code of a call comes to the call with the arguments in place, and the call enters the
function. -/
theorem CanCall.call_run {f : Expr} {args : List Expr} {vs : List Int64} {target : Tile Operand}
    {code : List Instr} {operands : List Operand} (h : CanCall img s entry f args vs)
    (htarget : IsCallee (plainSetting img).IsTile own f target)
    (hargs : IsArgs (plainSetting img).IsTile own args code operands)
    (hf : WellNamed f) (hnamed : ∀ a ∈ args, WellNamed a) (hsize : entry < img.code.size)
    (before calling : Bytes) :
    ∃ s₁ s₂, Seq img (plainSetting img).ok (arranging before calling target code operands) s s₁ ∧
      (s₁.get .rsp).toInt = (s.get .rsp).toInt - 8 * stackWords operands.length ∧
      img.exec s₁.advance (.call target.result) = .ok s₂ ∧ s₂.ip = entry ∧
      Arrived s₂ vs ∧ s₂.Room 1 := by
  have hworth := fun hname => (h.leads.worth hname).imp fun _ => And.left
  obtain ⟨s₁, pad, hseq, hstacked, hwords, hregs, _, hcallee⟩ := Setting.arrange_run htarget hargs
    hf hnamed h.values hworth h.apart h.room rfl rfl (fun _ _ _ _ => trivial) before calling
  have hrsp : (s₁.get .rsp).toInt = (s.get .rsp).toInt - 8 * stackWords operands.length := by
    rw [hstacked.rsp, hwords]
  have hcall : img.call s₁.advance target.result = Image.enter s₁.advance entry := by
    cases htarget with
    | symbol n =>
      cases h.leads with
      | address hname _ _ => exact absurd rfl (hname n)
      | symbol hbuiltin hlabel =>
        have hne : n ≠ [] := hf
        simp only [Const.ofName, List.isEmpty_iff, if_neg hne, Image.call, hbuiltin, hlabel]
    | operand hname hoperand =>
      obtain ⟨v, hv, hentry⟩ := h.leads.worth hname
      exact call_of_value hoperand.ne_symbol ((hcallee v hv hname).1 s₁.advance (.advance s₁))
        hentry hsize
  -- the call pushes its return address
  have hroom : s₁.advance.Room 2 :=
    (hstacked.room (by rw [hwords, hargs.length_eq]; exact h.room)).advance
  have henter : img.exec s₁.advance (.call target.result) =
      .ok { s₁.advance.pushed (Int64.ofInt s₁.advance.ip * 8) with ip := entry } := by
    rw [Image.exec, hcall, Image.enter, push_eq_pushed (n := 1) hroom]
    rfl
  have hpushed := Stacked.push (n := 1) hroom (Int64.ofInt s₁.advance.ip * 8)
  refine ⟨s₁, _, hseq, hrsp, henter, rfl, ?_, ?_⟩
  · have hpassed : Arrived (s₁.advance.pushed (Int64.ofInt s₁.advance.ip * 8)) vs := by
      refine .of_stacked (hstacked.trans hpushed.of_advance) h.room.high fun i r v hr hv => ?_
      have hne : ∀ r ∈ MachineReg.arguments, Reg.machine r ≠ .rsp := by decide
      rw [State.get_pushed (hne r (mem_of_getElem? hr)), State.get_advance, hregs i r v hr hv]
    exact ⟨hpassed.high, hpassed.inRegister, hpassed.onStack⟩
  · exact ⟨(hpushed.room hroom).aligned, (hpushed.room hroom).low, (hpushed.room hroom).high⟩

/-- What stands behind a call: its result is kept, and stack words are given back. -/
def callTail (result : Option Name) (words : Nat) : List Instr :=
  result.toList.map (fun n => .copy (.ofName n) .rax) ++
    if words = 0 then [] else [.arith .add (.reg .rsp) (.imm (8 * Int64.ofNat words))]

theorem callCode_eq (target : Operand) (operands : List Operand) (result : Option Name) :
    callCode target operands result =
      placeArgs operands ++ .call target :: callTail result (stackWords operands.length) := by
  cases result <;> simp [callCode, callTail, placeArgs]

/-- Behind a call that left the stack as it found it, the stack is as before the arguments were
put in place. -/
theorem callTail_run (img : Image) {t : State} {result : Option Name} {words n : Nat}
    {ok : State → Instr → Prop} (hok : ∀ s x, ok s x) (hresult : ∀ r ∈ result, UserName r)
    (hroom : s.Room (n + words))
    (hrsp : (t.get .rsp).toInt = (s.get .rsp).toInt - 8 * words) :
    ∃ t', Seq img ok (callTail result words) t t' ∧ t'.get .rsp = s.get .rsp := by
  have hkeep : ∃ u, Seq img ok (result.toList.map fun n => .copy (.ofName n) .rax) t u ∧
      u.get .rsp = t.get .rsp := by
    cases result with
    | none => exact ⟨t, .nil t, rfl⟩
    | some r =>
      refine ⟨_, .single rfl (hok _ _) rfl, ?_⟩
      exact State.get_set_of_ne _ _ ((hresult r rfl).tempName.ofName_ne_machine .rsp)
  obtain ⟨u, hseq, hu⟩ := hkeep
  by_cases hzero : words = 0
  · grind [callTail, Int64.toInt_inj]
  · have hlow := hroom.low
    have hhigh := hroom.high
    rw [dataStart_toInt] at hlow
    rw [stackTop_toInt] at hhigh
    have hwords : (8 * Int64.ofNat words).toInt = 8 * words := toInt_eight_mul (by omega)
    have hsum : (u.get .rsp + 8 * Int64.ofNat words).toInt = (s.get .rsp).toInt := by
      simp_all
    rw [callTail, if_neg hzero]
    refine ⟨_, hseq.append (.single rfl (hok _ _) rfl), ?_⟩
    exact (State.get_set_self _ _ _).trans (Int64.toInt_inj.mp hsum)

end

section

variable {img : Image} {s : State} {vs : List Int64} {n : Nat}

/-- The machine pushes words one after another. -/
theorem foldlM_push (hroom : s.Room (n + vs.length)) :
    ∃ s', vs.foldlM State.push s = .ok s' ∧ Stacked s s' vs.reverse := by
  induction vs generalizing s with
  | nil => exact ⟨s, rfl, .refl rfl rfl⟩
  | cons v vs ih =>
    have hroom₁ : s.Room (n + vs.length + 1) := hroom
    have hstacked := Stacked.push hroom₁ v
    obtain ⟨s', hpush, hstacked'⟩ := ih (hstacked.room hroom₁)
    refine ⟨s', ?_, ?_⟩
    · rw [foldlM_cons, push_eq_pushed hroom₁]
      exact hpush
    · rw [reverse_cons]
      exact hstacked.trans hstacked'

/-- The machine sets registers one after another. -/
theorem foldl_set {pairs : List (MachineReg × Int64)} (hnodup : (pairs.map Prod.fst).Nodup) :
    let s' := pairs.foldl (fun s (r, v) => s.set (.machine r) v) s
    (∀ p ∈ pairs, s'.get (.machine p.1) = p.2) ∧
      (∀ r, (∀ p ∈ pairs, r ≠ p.1) → s'.get (.machine r) = s.get (.machine r)) ∧
      s'.memory = s.memory := by
  induction pairs generalizing s with
  | nil => simp
  | cons p pairs ih =>
    obtain ⟨hnot, hnodup⟩ := nodup_cons.mp hnodup
    obtain ⟨hset, hother, hmemory⟩ := ih (s := s.set (.machine p.1) p.2) hnodup
    have hfresh : ∀ q ∈ pairs, p.1 ≠ q.1 := fun q hq heq =>
      hnot (mem_map.mpr ⟨q, hq, heq.symm⟩)
    refine ⟨forall_mem_cons.mpr ⟨?_, hset⟩, ?_, hmemory⟩
    · exact (hother p.1 hfresh).trans (State.get_set_self _ _ _)
    · intro r hr
      obtain ⟨hrp, hr⟩ := forall_mem_cons.mp hr
      refine (hother r hr).trans (State.get_set_of_ne _ _ fun heq => hrp ?_)
      exact (Reg.machine.inj heq).symm

/-- The machine enters a function with the arguments in place. -/
theorem callFunction_enters (limits : Limits) {name : Name} {entry : Nat}
    (hlabel : img.labels[name]? = some entry) (hroom : s.Room (2 + stackWords vs.length)) :
    ∃ s₁, (img.callFunction limits name vs s).2 = (img.run limits (limits.fuel s₁) s₁).2 ∧
      s₁.ip = entry ∧
      (s₁.get .rsp).toInt = (s.get .rsp).toInt - 8 * (stackWords vs.length + 1 : Nat) ∧
      Arrived s₁ vs ∧ s₁.Room 1 := by
  have hsix : MachineReg.arguments.length = 6 := rfl
  -- a word is taken if that keeps the stack aligned
  have halign : ∃ pad, Stacked s (s.alignStack vs) pad ∧ pad.length = (vs.length - 6) % 2 := by
    unfold State.alignStack
    by_cases heven : (vs.length - MachineReg.arguments.length) % 2 = 0
    · rw [if_pos heven]
      exact ⟨[], .refl rfl rfl, heven.symm⟩
    · rw [if_neg heven]
      rw [hsix] at heven
      have hroom₁ : s.Room (0 + 1) := hroom.of_le (by omega)
      exact ⟨_, .reserve hroom₁ (State.get_set_self _ _ _) rfl, by simp; omega⟩
  obtain ⟨pad, hstacked₁, hpad⟩ := halign
  have hwords : stackWords vs.length = (vs.drop 6).reverse.length + pad.length := by
    rw [stackWords, length_reverse, length_drop, hpad]
    rfl
  have hroom₁ : (s.alignStack vs).Room (2 + (vs.drop 6).reverse.length) :=
    hstacked₁.room (hroom.of_le (by omega))
  obtain ⟨s₂, hpush, hstacked₂⟩ := foldlM_push hroom₁
  rw [reverse_reverse] at hstacked₂
  have hroom₂ : s₂.Room 2 := hstacked₂.room (by simpa using hroom₁)
  -- registers are set, and the return address is pushed
  obtain ⟨hset, hother, hmemory⟩ := foldl_set (s := s₂) (nodup_zip_arguments vs)
  generalize hs₃ : (MachineReg.arguments.zip vs).foldl (fun s (r, v) => s.set (.machine r) v) s₂ =
    s₃ at hset hother hmemory
  have hne : ∀ r ∈ MachineReg.arguments, r ≠ .rsp := by decide
  have hrsp₃ : s₃.get .rsp = s₂.get .rsp :=
    hother .rsp fun p hp heq => hne p.1 (of_mem_zip hp).1 heq.symm
  have hstacked₃ := (hstacked₁.trans hstacked₂).congr hrsp₃ hmemory
  have hroom₃ : s₃.Room 2 :=
    ⟨hrsp₃ ▸ hroom₂.aligned, hrsp₃ ▸ hroom₂.low, hrsp₃ ▸ hroom₂.high⟩
  have hpushed := Stacked.push (n := 1) hroom₃ exitAddress
  have hstacked := hstacked₃.trans hpushed
  have hstart : (do ((← (s.alignStack vs).passArgs vs).push exitAddress) : Outcome) =
      .ok (s₃.pushed exitAddress) := by
    rw [State.passArgs, hsix, hpush]
    show State.push ((MachineReg.arguments.zip vs).foldl (fun s (r, v) => s.set (.machine r) v) s₂)
      exitAddress = _
    rw [hs₃, push_eq_pushed (n := 1) hroom₃]
  refine ⟨{ s₃.pushed exitAddress with ip := entry }, ?_, rfl, ?_, ?_, ?_⟩
  · grind [Image.callFunction]
  · have hrsp := hstacked.rsp
    rw [length_append, length_append] at hrsp
    rw [hwords, length_reverse]
    exact hrsp.trans (by simp; omega)
  · have hpassed : Arrived (s₃.pushed exitAddress) vs := by
      refine .of_stacked hstacked hroom.high fun i r v hr hv => ?_
      have hzip : (r, v) ∈ MachineReg.arguments.zip vs :=
        mem_of_getElem? (getElem?_zip_eq_some.mpr ⟨hr, hv⟩)
      rw [State.get_pushed fun heq => hne r (of_mem_zip hzip).1 (Reg.machine.inj heq),
        hset (r, v) hzip]
    exact ⟨hpassed.high, hpassed.inRegister, hpassed.onStack⟩
  · exact ⟨(hpushed.room hroom₃).aligned, (hpushed.room hroom₃).low, (hpushed.room hroom₃).high⟩

end

/-- The names in a statement of a function are in order: none is empty, and its temporaries
pass the check. -/
def NamesChecked (func : Name) (stmt : Stmt Expr) : Prop :=
  (∀ t ∈ stmt.temps, t ≠ [] ∧ Generate.checkTemp func t = .ok ()) ∧ [] ∉ stmtSymbols stmt

instance (func : Name) (stmt : Stmt Expr) : Decidable (NamesChecked func stmt) :=
  inferInstanceAs (Decidable (_ ∧ _))

theorem wellNamed_of_temps {e : Expr} (htemps : ∀ t ∈ e.temps, UserName t)
    (hsymbols : [] ∉ symbols e) : WellNamed e := by
  induction e with
  | const v | absent => trivial
  | name n => exact fun hn => hsymbols (by simp [symbols, hn])
  | temp t => exact htemps t (by simp [Expr.temps])
  | mem a ih => exact ih htemps hsymbols
  | binary op l r ihl ihr =>
    simp only [symbols, mem_append, not_or] at hsymbols
    simp only [Expr.temps, mem_append] at htemps
    exact ⟨ihl (fun t ht => htemps t (.inl ht)) hsymbols.1,
      ihr (fun t ht => htemps t (.inr ht)) hsymbols.2⟩

theorem NamesChecked.call_named {func : Name} {f : Expr} {args : List Expr} {result : Option Name}
    (h : NamesChecked func (.call f args result)) :
    WellNamed f ∧ (∀ a ∈ args, WellNamed a) ∧ ∀ t ∈ result, UserName t := by
  obtain ⟨htemps, hsymbols⟩ := h
  have huser : ∀ t ∈ (Stmt.call f args result).temps, UserName t := fun t ht =>
    .of_checkTemp (htemps t ht).1 (htemps t ht).2
  simp only [Stmt.temps, mem_append, mem_flatMap, Option.mem_toList] at huser
  simp only [stmtSymbols, mem_append, mem_flatMap, not_or, not_exists, not_and] at hsymbols
  refine ⟨wellNamed_of_temps (fun t ht => huser t (.inl (.inl ht))) hsymbols.1, ?_, ?_⟩
  · grind [wellNamed_of_temps]
  · exact fun t ht => huser t (.inr ht)

/-- Caller and callee agree on every argument. In every body whose statements selection takes,
the code of a call comes to its call instruction, the function is entered, and its first
instructions leave in each parameter the value of its argument before the statement. If the
function comes back with the stack pointer that it found, the stack pointer is as before the
statement in the end. The machine itself enters a function with the same effect. -/
theorem params_hold_args {func : Name} {body : List NodeStmt}
    (hnumbered : ∃ num : Numbering, num.Unique ∧ ∀ s ∈ body, s.Follows num)
    (hvalid : ∀ s ∈ body, s.plain.Valid) :
    (∃ codes memo, (body.mapM (coverStmt func)).run.run .empty = (.ok codes, memo) ∧
      codes.length = body.length ∧
      ∀ img (k : Nat) (st : NodeStmt) f args result, body[k]? = some st → st.plain = .call f args result →
        NamesChecked func st.plain →
        ∃ before target behind, codes[k]? = some (before ++ .call target :: behind) ∧
          ∀ (i : Nat) (s : State) name params entry vs, img.Holds i (before ++ .call target :: behind) →
            s.ip = i → IsCalled img name params entry → params.length = args.length →
            CanCall img s entry f args vs →
            ∃ s₁ s₂, img.steps before.length s = .ok s₁ ∧ s₁.ip = i + before.length ∧
              img.steps (1 + (entryCode name params).length) s₁ = .ok s₂ ∧
              s₂.ip = entry + (entryCode name params).length ∧
              List.Forall₂ (fun p v => s₂.get (.ofName p) = v) params vs ∧
              ∀ t, t.ip = s₁.ip + 1 → t.get .rsp = s₁.get .rsp →
                ∃ t', img.steps behind.length t = .ok t' ∧
                  t'.ip = i + (before ++ .call target :: behind).length ∧
                  t'.get .rsp = s.get .rsp) ∧
    ∀ img limits s name params entry vs, img.labels[name]? = some entry →
      IsCalled img name params entry → params.length = vs.length →
      s.Room (2 + stackWords vs.length) →
      ∃ s₁ s₂, (img.callFunction limits name vs s).2 = (img.run limits (limits.fuel s₁) s₁).2 ∧
        s₁.ip = entry ∧
        (s₁.get .rsp).toInt = (s.get .rsp).toInt - 8 * (stackWords vs.length + 1 : Nat) ∧
        img.steps (entryCode name params).length s₁ = .ok s₂ ∧
        List.Forall₂ (fun p v => s₂.get (.ofName p) = v) params vs := by
  have hok (t : State) (x : Instr) : (fun _ _ => True : State → Instr → Prop) t x := trivial
  have huser {img : Image} {name : Name} {params : List Name} {entry : Nat}
      (h : IsCalled img name params entry) : ∀ p ∈ params, UserName p := fun p hp =>
    .of_checkTemp (h.named p hp).1 (h.named p hp).2
  constructor
  · obtain ⟨codes, memo, hrun, hcodes⟩ := @exists_codes func body hnumbered hvalid
    obtain ⟨_, hstraight⟩ := hcodes Straight straight_rules
    refine ⟨codes, memo, hrun, hstraight.length_eq.symm, ?_⟩
    intro img k st f args result hk hst hchecked
    obtain ⟨own, hblocks⟩ := hcodes _ (plainSetting img).rules
    obtain ⟨code, hcode, hstmt⟩ := getElem?_of_forall₂ hblocks hk
    rw [hst] at hstmt hchecked
    obtain ⟨hf, hargs, hresult⟩ := hchecked.call_named
    cases hstmt with
    | @call _ _ _ target code operands before calling called htarget hoperands =>
      refine ⟨arranging before calling target code operands, target.result,
        callTail result (stackWords operands.length) ++ [.comment called], ?_, ?_⟩
      · rw [hcode, callCode_eq]
        simp [arranging]
      intro i s name params entry vs hholds hip hcalled hlength hcan
      have hsize : entry < img.code.size := (Array.getElem?_eq_some_iff.mp hcalled.code.head).1
      obtain ⟨s₁, s₂, hseq, hrsp, hexec, hip₂, harrived, hroom⟩ :=
        hcan.call_run htarget hoperands hf hargs hsize before calling
      obtain ⟨s₃, hseq', hparams⟩ := harrived.entryCode_run img hroom hok name
        (hlength.trans hcan.values.length_eq) hcalled.nodup (huser hcalled)
      have hip₁ := hseq.ip_eq
      refine ⟨s₁, s₃, hseq.steps_eq hholds.left hip, by rw [hip₁, hip], ?_, ?_, hparams, ?_⟩
      · have hcall : img.step s₁ = .ok s₂ :=
          Image.step_ok hholds.right.head (by rw [hip₁, hip]; rfl) hexec
        rw [Nat.add_comm, Image.steps, hcall]
        exact hseq'.steps_eq hcalled.code hip₂
      · rw [hseq'.ip_eq, hip₂]
      · intro t hipt hrspt
        obtain ⟨t', hseqt, hrspt'⟩ := callTail_run img hok hresult
          (hoperands.length_eq ▸ hcan.room) (hrspt ▸ hrsp)
        have hcomment : Seq img (fun _ _ => True) [.comment called] t' t'.advance :=
          .single rfl trivial rfl
        have hbehind := hseqt.append hcomment
        refine ⟨t'.advance, hbehind.steps_eq hholds.right.tail ?_, ?_, hrspt'⟩
        · rw [hipt, hip₁, hip]
          omega
        · rw [hbehind.ip_eq, hipt, hip₁, hip]
          simp only [List.length_append, List.length_cons]
          omega
  · intro img limits s name params entry vs hlabel hcalled hlength hroom
    obtain ⟨s₁, hrun, hip, hrsp, harrived, hroom₁⟩ :=
      callFunction_enters limits hlabel hroom
    obtain ⟨s₂, hseq, hparams⟩ := harrived.entryCode_run img hroom₁ hok name hlength hcalled.nodup
      (huser hcalled)
    exact ⟨s₁, s₂, hrun, hip, hrsp, hseq.steps_eq hcalled.code hip, hparams⟩

theorem holds_load (p : Program) : (load p).1.Holds 0 p.code := by
  intro j x hx
  have hcode : (load p).1.code = p.code.toArray := rfl
  rw [hcode, Nat.zero_add, getElem?_toArray, hx]

/-- Calls a function with seven arguments, the last of which is in memory. -/
def sevenArgs : List NodeStmt :=
  [⟨9, .call (.name 0 "g") [.const 1 10, .const 2 20, .temp 3 "x", .const 4 40, .const 5 50,
    .const 6 60, .mem 7 (.const 8 4096)] (some "r")⟩]

/-- The parameters of a function that is called so. -/
def sevenParams : List Name := ["a", "b", "c", "d", "e", "k", "l"]

/-- The code of the call, with a function of seven parameters behind it. -/
def sevenProgram : Program where
  globals := [⟨"s", "hello"⟩]
  funcs := []
  code := ((((sevenArgs.mapM (coverStmt "f")).run.run .empty).1.toOption).getD []).flatten ++
    entryCode "g" sevenParams

theorem follows_sevenArgs :
    ∃ num : Numbering, num.Unique ∧ ∀ s ∈ sevenArgs, s.Follows num := by
  refine exists_numbering [.name "g", .const 10, .const 20, .temp "x", .const 40, .const 50,
    .const 60, .mem (.const 4096), .const 4096] ?_
  simp [sevenArgs, NodeStmt.Follows, nodes, Node.Follows, NodeStmt.plain, Stmt.map, Node.expr]

/-- Seven arguments, one of them on the stack and read from memory, reach their parameters. -/
theorem sevenArgs_reach : ∃ n s, (load sevenProgram).1.steps n (load sevenProgram).2 = .ok s ∧
    List.Forall₂ (fun p v => s.get (.ofName p) = v) sevenParams
      [10, 20, 0, 40, 50, 60, 5] := by
  have hvalid : ∀ s ∈ sevenArgs, s.plain.Valid := by
    simp [sevenArgs, NodeStmt.plain, Stmt.map, Node.expr, Stmt.Valid, Expr.Valid]
  obtain ⟨⟨codes, memo, hrun, hlength, h⟩, _⟩ :=
    @params_hold_args "f" sevenArgs follows_sevenArgs hvalid
  obtain ⟨before, target, behind, hcode, h⟩ :=
    h (load sevenProgram).1 0 _ _ _ _ rfl rfl (by decide +kernel)
  have hcodes : codes = [before ++ .call target :: behind] := by
    cases codes with
    | nil => cases hcode
    | cons code rest =>
      cases hcode
      rw [List.length_eq_zero_iff.mp (Nat.succ.inj hlength)]
  have hprogram : sevenProgram.code = (before ++ .call target :: behind) ++
      entryCode "g" sevenParams := by
    rw [sevenProgram, hrun, hcodes, Except.toOption, Option.getD_some, List.flatten_singleton]
  have hholds := holds_load sevenProgram
  rw [hprogram] at hholds
  have hentry : (before ++ .call target :: behind).length = 14 := by
    have hsize : sevenProgram.code.length = 14 + 10 := by decide +kernel
    rw [hprogram, List.length_append] at hsize
    exact Nat.add_right_cancel hsize
  have hcalled : IsCalled (load sevenProgram).1 "g" sevenParams 14 :=
    ⟨by simpa only [hentry, Nat.zero_add] using hholds.right, by decide, by decide +kernel⟩
  have hcan : CanCall (load sevenProgram).1 (load sevenProgram).2 14 (.name "g")
      [.const 10, .const 20, .temp "x", .const 40, .const 50, .const 60, .mem (.const 4096)]
      [10, 20, 0, 40, 50, 60, 5] := by
    refine ⟨.symbol (by decide +kernel) (by decide +kernel), ?_, ?_, ?_⟩
    · simp only [List.forall₂_cons]
      decide +kernel
    · have hword : ¬ Pushes (load sevenProgram).2 7 4096 := by decide +kernel
      simpa [Setting.reads, Setting.value] using hword
    · exact ⟨by decide +kernel, by decide +kernel, by decide +kernel⟩
  obtain ⟨s₁, s₂, hsteps, _, hsteps', _, hparams, _⟩ :=
    h 0 (load sevenProgram).2 "g" _ 14 _ hholds.left rfl hcalled rfl hcan
  refine ⟨before.length + (1 + (entryCode "g" sevenParams).length), s₂, ?_, hparams⟩
  rw [Image.steps_add, hsteps]
  exact hsteps'

/-- Calls a function with the word that the temporary without a name points to. -/
def namelessArg : List NodeStmt := [⟨3, .call (.name 0 "g") [.mem 2 (.temp 1 [])] none⟩]

/-- The temporary without a name passes the check, but no address is made from it: its argument
has a value, and the code of the call fails before the call. -/
theorem namelessArg_fails :
    let code := ((((namelessArg.mapM (coverStmt "f")).run.run .empty).1.toOption).getD []).flatten
    let program : Program :=
      { globals := [⟨"s", "hello"⟩], funcs := [], code := code ++ entryCode "g" ["a"] }
    let (img, s) := load program
    let s := s.set (.ofName []) dataStart
    Generate.checkTemp "f" [] = .ok () ∧
      (plainSetting img).value s (.mem (.temp [])) = some 5 ∧
      code[3]? = some (.call (.const (.sym "g"))) ∧
      (img.steps 2 s).toOption.map State.ip = some 2 ∧ (img.steps 3 s).toOption.isNone = true := by
  decide +kernel

end X64Backend.Select
