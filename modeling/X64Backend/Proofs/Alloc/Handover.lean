import X64Backend.Proofs.Alloc.Stacked
import X64Backend.Proofs.Calling
import X64Backend.Proofs.Select.Shapes

/-! # Arguments beside registers to go through

Code that keeps all registers on the stack goes through `r9`, `r10` and `r11`, and `r9` passes
the sixth argument of a call. No register that passes an argument is written between its move and
the call, but for one case: a call to a word of memory whose address has a base loads the base
into `r9`. The moves that take arguments over go through none of the registers that they read.
-/

namespace X64Backend.Machine

open Asm

section

variable {img : Image} {ok : State → Instr → Prop} {xs ys : List Instr} {s s' : State}

theorem Image.execAll_append (img : Image) (xs ys : List Instr) (s : State) :
    img.execAll (xs ++ ys) s = img.execAll xs s >>= img.execAll ys := by
  induction xs generalizing s with
  | nil => rfl
  | cons x xs ih =>
    show img.exec s.advance x >>= img.execAll (xs ++ ys) = (_ >>= _) >>= _
    rw [bind_assoc]
    exact congrArg _ (funext ih)

theorem Seq.falls_of_mem (h : Seq img ok xs s s') {x : Instr} (hx : x ∈ xs) : falls x = true := by
  induction h with
  | nil => cases hx
  | cons hfalls _ _ _ ih =>
    rcases List.mem_cons.mp hx with rfl | hx
    · exact hfalls
    · exact ih hx

theorem Seq.exists_of_append (h : Seq img ok (xs ++ ys) s s') :
    ∃ u, Seq img ok xs s u ∧ Seq img ok ys u s' := by
  induction xs generalizing s with
  | nil => exact ⟨s, .nil s, h⟩
  | cons x xs ih =>
    cases h with
    | cons hx hok hexec hrest =>
      obtain ⟨u, hxs, hys⟩ := ih hrest
      exact ⟨u, .cons hx hok hexec hxs, hys⟩

end

end X64Backend.Machine

namespace X64Backend.Alloc

open Asm Code Dataflow Machine Select List

/-! ## Straight code block by block -/

/-- An instruction has a block that goes through registers of `U`. It reads what is known to be
the same, and writes none of the registers to go through. -/
structure Frame.Follows (F : Frame) (T U : Reg → Prop) (x : Instr) : Prop where
  block : ∃ block, Stack.instr F.slots x = .ok block ∧ Block inFrame F.slots U x block
  read : ∀ r ∈ uses x, F.keeping.Trusts T r
  write : ∀ r ∈ defs x, r.Proper ∧ r ≠ .rbp ∧ ¬ U r

section

variable {F : Frame} {T T' U : Reg → Prop} {x : Instr} {code : List Instr}
  {blocks : List (List Instr)} {img : Image} {s s' t : State}

theorem Frame.Follows.mono (h : F.Follows T U x) (hT : ∀ r, T r → T' r) : F.Follows T' U x :=
  ⟨h.block, fun r hr => ⟨(h.read r hr).proper, fun hfree => hT r ((h.read r hr).trusted hfree)⟩,
    h.write⟩

theorem Frame.exists_blocks (h : ∀ x ∈ code, ∃ block, Stack.instr F.slots x = .ok block) :
    ∃ blocks, code.mapM (Stack.instr F.slots) = .ok blocks ∧
      List.Forall₂ (fun x block => Stack.instr F.slots x = .ok block) code blocks := by
  cases hmap : code.mapM (Stack.instr F.slots) with
  | ok blocks => exact ⟨blocks, rfl, mapM_eq_ok.mp hmap⟩
  | error d =>
    obtain ⟨x, hx, hfail⟩ := exists_of_mapM_eq_error hmap
    obtain ⟨block, hblock⟩ := h x hx
    exact nomatch hblock.symm.trans hfail

theorem Frame.Follows.exists_block (h : F.Follows T U x) :
    ∃ block, Stack.instr F.slots x = .ok block := h.block.imp fun _ => And.left

theorem Stack.mapM_instr_append {slots : Slots} {a b : List Instr} {as bs : List (List Instr)}
    (ha : a.mapM (Stack.instr slots) = .ok as) (hb : b.mapM (Stack.instr slots) = .ok bs) :
    (a ++ b).mapM (Stack.instr slots) = .ok (as ++ bs) := by
  rw [mapM_append, ha, hb]
  rfl

/-- A run of straight code that leaves the slots alone is followed by its blocks. What the code
writes is the same behind it. -/
theorem Frame.follow_blocks (h : Seq img (Machine.Apart F.Word img) code s s') (hU : ¬ U .rbp)
    (hscratch : ∀ r, U r → F.slots[r.name]? = none ∧ ¬ T r) (hag : F.Holds T s t)
    (hfollows : ∀ x ∈ code, F.Follows T U x)
    (hblocks : List.Forall₂ (fun x block => Stack.instr F.slots x = .ok block) code blocks) :
    ∃ t', img.execAll blocks.flatten t = .ok t' ∧
      F.Holds (fun r => T r ∨ ∃ x ∈ code, r ∈ defs x) s' t' := by
  -- On the run of the code. What is agreed on grows by what each instruction writes.
  induction h generalizing t T blocks with
  | nil s =>
    cases hblocks
    refine ⟨t, rfl, hag.mono fun r hr => hr.resolve_right ?_⟩
    rintro ⟨_, hmem, _⟩
    cases hmem
  | @cons x code s u s' hfalls hapart hexec _ ih =>
    obtain ⟨hx, hrest⟩ := forall_mem_cons.mp hfollows
    cases hblocks with
    | @cons _ block _ blocks hblock hblocks =>
    obtain ⟨block', hblock', hstands⟩ := hx.block
    obtain rfl := Except.ok.inj (hblock.symm.trans hblock')
    have hsuits : F.keeping.Suits U T (fun r => T r ∨ r ∈ defs x) img img s.advance x :=
      { read := hx.read
        write := fun r hr => ⟨(hx.write r hr).1, (hx.write r hr).2.1⟩
        symbols := fun _ _ => rfl
        apart := ⟨hapart.words, hapart.stack⟩
        keep := fun r hr => ⟨fun hUr => hr.elim (hscratch r hUr).2 fun hd => (hx.write r hd).2.2 hUr,
          fun hnot => hr.resolve_right hnot⟩ }
    have hto : F.keeping.Spare U := fun r hr => ⟨fun h => hU (h ▸ hr), (hscratch r hr).1⟩
    have hspare : ∀ r, U r → r ∉ uses x := fun r hr huse =>
      (hscratch r hr).2 ((hx.read r huse).trusted (hscratch r hr).1)
    have hrelated : Outcome.Related (F.Holds fun r => T r ∨ r ∈ defs x)
        (SameEnd F.Word fun _ => False) (img.exec s.advance x) (img.execAll block t) :=
      Frame.related_block hstands hfalls hto hag hspare hsuits
    rw [hexec] at hrelated
    generalize hout : img.execAll block t = out at hrelated
    cases hrelated with
    | @ok _ t₁ hag₁ =>
      obtain ⟨t', hrun, hag'⟩ := ih (T := fun r => T r ∨ r ∈ defs x)
        (fun r hr => ⟨(hscratch r hr).1, fun h =>
          h.elim (hscratch r hr).2 fun hd => (hx.write r hd).2.2 hr⟩)
        hag₁ (fun y hy => (hrest y hy).mono fun _ => .inl) hblocks
      refine ⟨t', ?_, hag'.mono ?_⟩
      · rw [flatten_cons, Image.execAll_append, hout]
        exact hrun
      · grind

end

/-! ## The code of a call -/

/-- The shape of the code that prepares operands. It names abstract registers, and those that
division and comparison work in. -/
def preparing : Shape where
  reg r := r = .rax ∨ r = .rdx ∨ ∃ n, r = .abstract n ∧ r.Proper
  frame _ := False
  symbol _ := True
  stack _ := True

theorem issuedTo_preparing_le (own : Owner) : (issuedTo preparing own).Le preparing where
  reg := by
    rintro r (hr | ⟨k, _, rfl⟩)
    · exact hr
    · exact .inr (.inr ⟨_, rfl, Reg.ofName_issued k⟩)
  frame h := h
  symbol h := h
  stack h := h

theorem admits_preparing {e : Expr} (h : WellNamed e) : Admits preparing e := by
  induction e with
  | temp t => exact .inr (.inr ⟨t, h.ofName_eq, Reg.proper_ofName t⟩)
  | mem a ih => exact ih h
  | binary op l r ihl ihr => exact ⟨ihl h.1, ihr h.2⟩
  | _ => trivial

/-- What blocks through all registers to go through leave alone. -/
def Lasting (r : Reg) : Prop := Stack.Plain r ∧ r ∉ Stack.scratch

section

variable {S : Shape} {F : Frame} {x : Instr} {r : Reg}

/-- Instructions of a shape can be kept on the stack. -/
theorem instr_block_of_allows {slots : Slots} {U : Reg → Prop} (hx : S.Allows x) (h10 : U .r10)
    (h11 : U .r11) (h9 : Stack.needsR9 slots x → U .r9) :
    ∃ block, Stack.instr slots x = .ok block ∧ Block inFrame slots U x block := by
  obtain ⟨block, hblock, hstands⟩ := Stack.instr_standsFor h10 h11 h9 hx.hasTarget hx.words_le
  exact ⟨block, hblock, hstands.block⟩

theorem cases_of_preparing (h : preparing.Names r ∨ r = .rax ∨ r = .rdx ∨ r = .rsp) :
    (r = .rax ∨ r = .rdx ∨ r = .rsp) ∨ ∃ n, r = .abstract n ∧ r.Proper := by
  rcases h with ((h | h | h) | ⟨⟨_, h⟩, _⟩) | h | h | h
  · exact .inl (.inl h)
  · exact .inl (.inr (.inl h))
  · exact .inr h
  · exact h.elim
  · exact .inl (.inl h)
  · exact .inl (.inr (.inl h))
  · exact .inl (.inr (.inr h))

theorem trusts_of_preparing (h : (r = .rax ∨ r = .rdx ∨ r = .rsp) ∨ ∃ n, r = .abstract n ∧ r.Proper)
    (hcovered : ∀ n, r = .abstract n → F.slots[n]? ≠ none) : F.keeping.Trusts Lasting r := by
  rcases h with h | ⟨n, rfl, hproper⟩
  · rcases h with rfl | rfl | rfl <;>
      exact ⟨proper_machine _, fun _ => ⟨fun _ => nofun, by decide⟩⟩
  · exact ⟨hproper, fun hfree => absurd hfree (hcovered n rfl)⟩

/-- The code before the moves of arguments is followed through all registers to go through. -/
theorem follows_of_preparing (hx : preparing.Allows x) (hcall : ∀ a, x ≠ .call a)
    (hcovered : ∀ n, .abstract n ∈ x.namedRegs → F.slots[n]? ≠ none) :
    F.Follows Lasting (· ∈ Stack.scratch) x := by
  have hnotCall : isCall x = false := by
    cases x with
    | call a => exact absurd rfl (hcall a)
    | _ => rfl
  refine ⟨instr_block_of_allows hx (by decide) (by decide) fun _ => by decide, ?_, ?_⟩
  · intro r hr
    refine trusts_of_preparing (cases_of_preparing (hx.names_of_mem hcall (.inl hr))) ?_
    rintro n rfl
    rcases named_or_implicit_of_mem hnotCall (.inl hr) with hnamed | himplicit
    · exact hcovered n hnamed
    · rcases himplicit with h | h | h | h <;> cases h
  · grind [cases_of_preparing, hx.names_of_mem, proper_machine, Stack.scratch]

/-- The registers that moves into registers go through. -/
def Relay (r : Reg) : Prop := r = .r10 ∨ r = .r11

theorem mem_scratch_of_relay (h : Relay r) : r ∈ Stack.scratch := by
  rcases h with rfl | rfl <;> decide

theorem scratch_free (h : r ∈ Stack.scratch) : F.slots[r.name]? = none := by
  grind [Stack.scratch, F.free_machine]

/-- The move of an argument is followed without `r9`. -/
theorem follows_move {q : MachineReg} (hq : q ∈ MachineReg.arguments) {a : Operand}
    (ha : preparing.Source a) (hcovered : ∀ n, .abstract n ∈ a.namedRegs → F.slots[n]? ≠ none) :
    F.Follows Lasting Relay (.mov (.reg (.machine q)) a) := by
  let wide : Shape := { preparing with reg := fun r => preparing.reg r ∨ r = .machine q }
  have hle : preparing.Le wide := ⟨.inl, id, id, id⟩
  have hx : wide.Allows (.mov (.reg (.machine q)) a) := .mov (.reg (.inr rfl) (ha.mono hle))
  refine ⟨instr_block_of_allows hx (.inl rfl) (.inr rfl) ?_, ?_, ?_⟩
  · exact fun h => absurd (F.free_machine q) h.1
  · intro r hr
    rw [uses_mov] at hr
    refine trusts_of_preparing (cases_of_preparing (.inl (ha.names_of_mem hr))) ?_
    rintro n rfl
    exact hcovered n (mem_named_of_regs hr)
  · intro r hr
    obtain rfl : r = .machine q := by simpa [Operand.target] using hr
    have hne : ∀ q ∈ MachineReg.arguments, q ≠ .rbp ∧ q ≠ .r10 ∧ q ≠ .r11 := by decide
    obtain ⟨hrbp, h10, h11⟩ := hne q hq
    exact ⟨proper_machine q, fun h => hrbp (Reg.machine.inj h),
      fun h => h.elim (fun h => h10 (Reg.machine.inj h)) fun h => h11 (Reg.machine.inj h)⟩

end

/-! ## Words that are left alone -/

open Classical in
/-- Machines whose memory belongs to the program but for some words. -/
noncomputable def sparing (img : Image) (Z : Int64 → Prop) : Setting where
  img := img
  limit := stackTop
  hidden a := decide (Z a)
  ok := Machine.Apart Z img
  strict := False
  allows _ _ _ hstack hwords :=
    ⟨fun m hm a ha => of_decide_eq_false (hwords m hm a ha).2, fun h => nomatch hstack.symm.trans h⟩
  stackTop_le h := h.elim
  not_hidden h := h.elim

section

variable {img : Image} {Z : Int64 → Prop} {s : State}

theorem hidden_sparing {a : Int64} : (sparing img Z).hidden a = false ↔ ¬ Z a :=
  decide_eq_false_iff_not

/-- An expression that reads none of the words is worth the same, and reads the same. -/
theorem value_sparing {e : Expr} {v : Int64} (h : (plainSetting img).value s e = some v)
    (hreads : ∀ a ∈ (plainSetting img).reads s e, ¬ Z a) :
    (sparing img Z).value s e = some v ∧
      (sparing img Z).reads s e = (plainSetting img).reads s e := by
  induction e generalizing v with
  | mem a ih =>
    obtain ⟨c, hc, hload⟩ := Option.bind_eq_some_iff.mp h
    obtain ⟨hcheck, ⟨hlimit, _⟩, hread⟩ := Setting.load?_eq_some.mp hload
    rw [Setting.reads, hc, Option.toList_some] at hreads
    obtain ⟨hnot, hreads⟩ := forall_mem_cons.mp hreads
    obtain ⟨hvalue, heq⟩ := ih hc hreads
    refine ⟨Option.bind_eq_some_iff.mpr ⟨c, hvalue, ?_⟩, ?_⟩
    · exact Setting.load?_eq_some.mpr ⟨hcheck, ⟨hlimit, hidden_sparing.mpr hnot⟩, hread⟩
    · rw [Setting.reads, Setting.reads, hvalue, hc, heq]
  | binary op l r ihl ihr =>
    obtain ⟨a, ha, h⟩ := Option.bind_eq_some_iff.mp h
    obtain ⟨b, hb, h⟩ := Option.bind_eq_some_iff.mp h
    obtain ⟨hlr, hrr⟩ := forall_mem_append.mp hreads
    obtain ⟨hl, hleft⟩ := ihl ha hlr
    obtain ⟨hr, hright⟩ := ihr hb hrr
    refine ⟨Option.bind_eq_some_iff.mpr ⟨a, hl, Option.bind_eq_some_iff.mpr ⟨b, hr, h⟩⟩, ?_⟩
    rw [Setting.reads, Setting.reads, hleft, hright]
  | absent => cases h
  | _ => exact ⟨h, rfl⟩

end

/-- A state in which arguments, worth some words, can be handed over by code that keeps registers
in a frame: no word that is read or pushed to is one of the frame, none that is read is pushed
to, and there is room on the stack. -/
structure Handed (F : Frame) (img : Image) (s : State) (f : Expr) (args : List Expr)
    (vs : List Int64) : Prop where
  values : List.Forall₂ (fun e v => (plainSetting img).value s e = some v) args vs
  worth : (∀ n, f ≠ .name n) → ∃ v, (plainSetting img).value s f = some v
  reads : ∀ e ∈ f :: args, ∀ a ∈ (plainSetting img).reads s e,
    ¬ Pushes s args.length a ∧ ¬ F.Word a
  pushed : ∀ a, Pushes s args.length a → ¬ F.Word a
  room : s.Room (stackWords args.length)

section

variable {F : Frame} {img : Image} {s : State} {f : Expr} {args : List Expr} {vs : List Int64}
  {own : Owner}

theorem Handed.sparing_values (h : Handed F img s f args vs) :
    List.Forall₂ (fun e v => (sparing img F.Word).value s e = some v) args vs :=
  ((forall₂_and_left _ _).mpr ⟨fun e he => h.reads e (mem_cons_of_mem f he), h.values⟩).imp
    fun _ _ ⟨hreads, hv⟩ => (value_sparing hv fun a ha => (hreads a ha).2).1

theorem Handed.sparing_reads (h : Handed F img s f args vs) {e : Expr} (he : e ∈ f :: args) :
    ∀ a ∈ (sparing img F.Word).reads s e, ¬ Pushes s args.length a := by
  have hsame : (∃ v, (plainSetting img).value s e = some v) →
      (sparing img F.Word).reads s e = (plainSetting img).reads s e := fun ⟨v, hv⟩ =>
    (value_sparing hv fun a ha => (h.reads e he a ha).2).2
  have heq : (sparing img F.Word).reads s e = (plainSetting img).reads s e := by
    rcases mem_cons.mp he with rfl | hargs
    · by_cases hname : ∃ n, e = .name n
      · obtain ⟨n, rfl⟩ := hname
        rfl
      · exact hsame (h.worth fun n hn => hname ⟨n, hn⟩)
    · obtain ⟨i, hi⟩ := mem_iff_getElem?.mp hargs
      obtain ⟨v, _, hv⟩ := getElem?_of_forall₂ h.values hi
      exact hsame ⟨v, hv⟩
  intro a ha
  exact (h.reads e he a (heq ▸ ha)).1

theorem Handed.pushing (h : Handed F img s f args vs) :
    (sparing img F.Word).Pushing ((s.get .rsp).toInt - 8 * stackWords args.length)
      ((s.get .rsp).toInt - 8 * ((args.length - 6) % 2 : Nat)) := by
  rintro t a hwords ⟨hlo, hhi⟩
  refine ⟨fun m hm c hc => hidden_sparing.mp (hwords m hm c hc).2, fun _ => h.pushed _ ?_⟩
  have hlow := h.room.low
  have hhigh := h.room.high
  rw [dataStart_toInt] at hlow
  rw [stackTop_toInt] at hhigh
  have hword : (t.get .rsp - 8).toInt = (t.get .rsp).toInt - 8 := by
    rw [Int64.toInt_sub, show (8 : Int64).toInt = 8 from rfl]
    exact Int.bmod_eq_of_le (by omega) (by omega)
  rw [Pushes, hword]
  omega

/-- The code of a call, with temporaries as registers, comes to its call instruction with the
arguments in place, and leaves the frame alone on the way. -/
theorem Handed.arrange (h : Handed F img s f args vs) {target : Tile Operand} {code : List Instr}
    {operands : List Operand} (htarget : IsCallee (sparing img F.Word).IsTile own f target)
    (hargs : IsArgs (sparing img F.Word).IsTile own args code operands) (hf : WellNamed f)
    (hnamed : ∀ a ∈ args, WellNamed a) (before calling : Bytes) :
    ∃ s₁, Seq img (Machine.Apart F.Word img) (arranging before calling target code operands) s s₁ ∧
      (∀ (i : Nat) r v, MachineReg.arguments[i]? = some r → vs[i]? = some v →
        s₁.get (.machine r) = v) ∧
      (∀ t, UserName t → s₁.get (.ofName t) = s.get (.ofName t)) ∧
      ((∀ k, f ≠ .name k) → (∀ v, (plainSetting img).value s f = some v →
          img.value s₁ target.result = .ok v) ∧
        ∀ m ∈ target.result.words, ∀ c, img.address s₁ m = .ok c → ¬ F.Word c) := by
  have hcallee : ∀ v, (plainSetting img).value s f = some v →
      (sparing img F.Word).value s f = some v := fun v hv =>
    (value_sparing hv fun a ha => (h.reads f mem_cons_self a ha).2).1
  have hroom : s.Room (0 + stackWords args.length) := h.room.of_le (Nat.le_of_eq (Nat.zero_add _))
  obtain ⟨s₁, _, hseq, _, _, hregs, husers, hworth⟩ := Setting.arrange_run htarget hargs hf hnamed
    h.sparing_values (fun hname => (h.worth hname).imp hcallee) (fun e => h.sparing_reads)
    hroom rfl rfl h.pushing before calling
  refine ⟨s₁, hseq, hregs, husers, fun hname => ⟨fun v hv => ?_, fun m hm c hc => ?_⟩⟩
  · exact (hworth v (hcallee v hv) hname).1 s₁ (.refl s₁)
  · obtain ⟨v, hv⟩ := h.worth hname
    exact hidden_sparing.mp ((hworth v (hcallee v hv) hname).2 s₁ (fun _ => rfl) m hm c hc).2

end

/-! ## The call itself -/

section

variable {F : Frame} {T : Reg → Prop} {img : Image} {s t : State} {target : Operand}

/-- Only a base in an abstract register is loaded into `r9`. -/
theorem mov_r10_of_inPlace {slots : Slots} (hmem : ∀ m, target = .mem m → AbstractMem m)
    (hbase : ∀ m b, target = .mem m → m.base ≠ some (.abstract b)) :
    ∀ x ∈ (Stack.inPlace slots target .r9 .r10).1, ∃ a, x = .mov (.reg .r10) a := by
  cases target with
  | mem m =>
    obtain ⟨base, index, disp⟩ := m
    have hload : (Stack.inPlace slots (.mem ⟨base, index, disp⟩) .r9 .r10).1 =
        (Stack.address slots ⟨none, index, disp⟩ .r9 .r10).1 := by
      cases base with
      | none => rfl
      | some r =>
        rcases (hmem _ rfl).1 r rfl with rfl | ⟨b, rfl⟩
        · rfl
        · exact absurd rfl (hbase _ b rfl)
    rw [hload]
    cases index with
    | none => exact fun x hx => nomatch hx
    | some p =>
      grind [Stack.address, Stack.readReg, mem_singleton]
  | _ => exact fun x hx => nomatch hx

theorem PlacedAs.carriedMem {slots : Slots} {fs : Fetches} {m n : Mem}
    (h : PlacedAs inFrame slots fs (.mem m) (.mem n)) : CarriedMem slots fs m n := by
  cases h with
  | mem h => exact h

/-- Where a call goes is loaded through `r9` and `r10`. The value is the same, and `r9` is lost to
a base. -/
theorem target_loaded (hag : F.Holds T s t) (hT : ∀ r, Lasting r → T r)
    (htrust : ∀ r ∈ target.regs, F.keeping.Trusts Lasting r)
    (hmem : ∀ m, target = .mem m → AbstractMem m)
    (hapart : ∀ m ∈ target.words, ∀ c, img.address s m = .ok c → ¬ F.Word c) :
    ∃ t₁, img.execAll (Stack.inPlace F.slots target .r9 .r10).1 t = .ok t₁ ∧
      img.value s target = img.value t₁ (Stack.inPlace F.slots target .r9 .r10).2 ∧
      (∀ r, r ≠ .r9 → r ≠ .r10 → t₁.get r = t.get r) ∧
      (∀ m b, target = .mem m → m.base = some (.abstract b) →
        t₁.get .r9 = s.get (.abstract b)) ∧
      ((∀ m b, target = .mem m → m.base ≠ some (.abstract b)) → t₁.get .r9 = t.get .r9) := by
  have hloads : Loads F.slots (fun r => r = .r9 ∨ r = .r10) target.namedRegs
      (Stack.inPlace F.slots target .r9 .r10).1 fun fs =>
        PlacedAs inFrame F.slots fs target (Stack.inPlace F.slots target .r9 .r10).2 :=
    Stack.inPlace_loads (by decide) (.inl rfl) (.inr rfl) target
  obtain ⟨fs, hload, hfs, hplaced⟩ := hloads
  -- What lasts is in neither of the two registers.
  have hLasting : ∀ r, Lasting r → T r ∧ ¬ (r = .r9 ∨ r = .r10) := by
    refine fun r hr => ⟨hT r hr, ?_⟩
    rintro (rfl | rfl)
    · exact hr.2 (by decide)
    · exact hr.2 (by decide)
  have hspare : F.keeping.Spare fun r => r = .r9 ∨ r = .r10 := by
    rintro r (rfl | rfl) <;> exact ⟨by decide, F.free_machine _⟩
  obtain ⟨t₁, hseq, hag₁, hfetched, hkeep⟩ :=
    Keeping.fetches_run img hfs hspare (Frame.holds_iff.mpr hag) hLasting
  refine ⟨t₁, ?_, ?_, ?_, ?_, ?_⟩
  · rw [hload]
    exact hseq.execAll_eq
  · exact Keeping.value_of_readAs hplaced.readAs hag₁ hfetched htrust (fun _ _ => rfl) hapart
  · intro r h9 h10
    refine hkeep r fun p hp heq => ?_
    rcases hfs.scratch p hp with h | h
    · exact h9 (heq.trans h)
    · exact h10 (heq.trans h)
  · rintro ⟨_, index, disp⟩ b rfl rfl
    have htrusts : F.keeping.Trusts Lasting (.abstract b) :=
      htrust _ (mem_append_left _ mem_cons_self)
    have hslot : ∃ k, F.slots[b]? = some k := by
      cases hb : F.slots[b]? with
      | some k => exact ⟨k, rfl⟩
      | none => exact absurd rfl ((htrusts.trusted hb).1 b)
    obtain ⟨k, hk⟩ := hslot
    have hread : (Stack.readReg F.slots (.abstract b) .r9).2 = .r9 := by
      rw [Stack.readReg, Spilling.slot?_eq_some.mpr ⟨k, hk, rfl⟩]
    have hcarried : CarriedBase F.slots fs (some (.abstract b))
        (some (Stack.readReg F.slots (.abstract b) .r9).2) := (PlacedAs.carriedMem hplaced).base
    rw [hread] at hcarried
    cases hcarried with
    | reg _ _ hq => exact Keeping.get_of_carried hq hag₁ hfetched htrusts
  -- Without a base to load, only r10 is loaded.
  · intro hbase
    refine hkeep .r9 fun p hp heq => ?_
    have hmov : .mov (.reg p.1) (.mem (.slot p.2)) ∈ (Stack.inPlace F.slots target .r9 .r10).1 := by
      rw [hload]
      exact mem_map_of_mem hp
    obtain ⟨a, ha⟩ := mov_r10_of_inPlace hmem hbase _ hmov
    rw [← heq] at ha
    cases ha

end

/-! ## Both sides of a call -/

/-- A state with the frame pointer at a frame whose slots are words of memory. -/
structure Frame.Stands (F : Frame) (t : State) : Prop where
  base : t.get .rbp = F.base
  usable {n : Name} {k : Nat} (h : F.slots[n]? = some k) :
    State.checkAddress (slotAddress F.base k) = .ok ()

/-- The state with the slots of a frame as registers. -/
def Frame.view (F : Frame) (t : State) : State :=
  { t with regs := { t.regs with
      abstract := F.slots.map fun _ k => t.memory.read (slotAddress F.base k) } }

theorem Frame.holds_view {F : Frame} {t : State} (h : F.Stands t) :
    F.Holds Stack.Plain (F.view t) t where
  slot {n k} hn := by
    refine load_eq_ok.mpr ⟨h.usable hn, ?_⟩
    have hget : (F.view t).get (.abstract n) =
        (F.slots.map fun _ k => t.memory.read (slotAddress F.base k)).getD n 0 := rfl
    rw [hget, Std.TreeMap.getD_eq_getD_getElem?, Std.TreeMap.getElem?_map, hn]
    rfl
  reg {r} hr _ := by
    cases r with
    | abstract n => exact absurd rfl (hr n)
    | machine q | rip => rfl
  world := ⟨fun _ _ => rfl, rfl, rfl⟩
  left := rfl
  right := rfl
  base := h.base

/-- What parameters are moved from, beside a frame: it is there, and no word of the frame. -/
def Frame.Finds (F : Frame) (img : Image) (t : State) (vs : List Int64) : Prop :=
  ∀ (i : Nat) v, vs[i]? = some v → img.value t (Generate.incoming i) = .ok v ∧
    ∀ m ∈ (Generate.incoming i).words, ∀ c, img.address t m = .ok c → ¬ F.Word c

section

variable {F : Frame} {img : Image} {t : State} {params : List Name} {vs : List Int64}

theorem incoming_cases (i : Nat) : (∃ q ∈ MachineReg.arguments, i < 6 ∧
    Generate.incoming i = .reg (.machine q)) ∨
      6 ≤ i ∧ ∃ d, Generate.incoming i = .mem (.offset .rbp d) := by
  have hsix : MachineReg.arguments.length = 6 := rfl
  unfold Generate.incoming
  cases hr : MachineReg.arguments[i]? with
  | some q =>
    grind
  | none =>
    have hle := List.getElem?_eq_none_iff.mp hr
    exact .inr ⟨by omega, _, rfl⟩

/-- The move of a parameter is followed, without `r9` if it is from a register. -/
theorem follows_parameter {T U : Reg → Prop} {p : Name} (hp : F.slots[p]? ≠ none) {a : Operand}
    (ha : ∀ r ∈ a.regs, (∃ q, r = .machine q) ∧ T r) (h10 : U .r10) (h11 : U .r11)
    (h9 : (∃ m, a = .mem m) → U .r9) (hU : ∀ r, U r → ∃ q, r = .machine q) :
    F.Follows T U (.mov (.reg (.ofName p)) a) := by
  have hname : Reg.ofName p = .abstract p := by
    obtain ⟨k, hk⟩ := Option.ne_none_iff_exists'.mp hp
    exact F.assigned.abstract hk
  obtain ⟨block, hblock, hstands⟩ := Stack.instr_standsFor h10 h11
    (x := .mov (.reg (.ofName p)) a) (fun h => h9 h.2) rfl (words_le a)
  refine ⟨⟨block, hblock, hstands.block⟩, ?_, ?_⟩
  · intro r hr
    rw [uses_mov] at hr
    obtain ⟨⟨q, rfl⟩, hT⟩ := ha r hr
    exact ⟨proper_machine q, fun _ => hT⟩
  · intro r hr
    obtain rfl : r = .abstract p := by simpa [Operand.target, hname] using hr
    refine ⟨hname, fun h => ?_, fun h => ?_⟩
    · cases h
    · obtain ⟨q, hq⟩ := hU _ h
      cases hq

theorem getElem?_argumentMoves {i : Nat} {x : Instr}
    (h : (Generate.argumentMoves params)[i]? = some x) :
    ∃ p ∈ params, x = .mov (.reg (.ofName p)) (Generate.incoming i) := by
  grind [Generate.argumentMoves, mem_of_getElem?,
    Option.some.inj]

theorem not_relay_of_argument {q : MachineReg} (hq : q ∈ MachineReg.arguments) :
    ¬ Relay (.machine q) := by
  have hne : ∀ q ∈ MachineReg.arguments, q ≠ .r10 ∧ q ≠ .r11 := by decide
  rintro (h | h)
  · exact (hne q hq).1 (Reg.machine.inj h)
  · exact (hne q hq).2 (Reg.machine.inj h)

/-- The moves from registers are followed without `r9`. -/
theorem follows_first (hcovered : ∀ p ∈ params, F.slots[p]? ≠ none) :
    ∀ x ∈ (Generate.argumentMoves params).take 6,
      F.Follows (fun r => Stack.Plain r ∧ ¬ Relay r) Relay x := by
  intro x hx
  obtain ⟨i, hi⟩ := mem_iff_getElem?.mp hx
  rw [getElem?_take] at hi
  split at hi
  next hlt =>
    obtain ⟨p, hp, rfl⟩ := getElem?_argumentMoves hi
    rcases incoming_cases i with ⟨q, hq, _, hreg⟩ | ⟨hle, _⟩
    · rw [hreg]
      refine follows_parameter (hcovered p hp) ?_ (.inl rfl) (.inr rfl) (fun ⟨m, h⟩ => nomatch h) ?_
      · intro r hr
        obtain rfl := mem_singleton.mp hr
        exact ⟨⟨q, rfl⟩, fun _ h => (nomatch h), not_relay_of_argument hq⟩
      · rintro r (rfl | rfl) <;> exact ⟨_, rfl⟩
    · omega
  next => cases hi

/-- The moves from the stack are followed through all registers to go through. -/
theorem follows_rest (hcovered : ∀ p ∈ params, F.slots[p]? ≠ none) :
    ∀ x ∈ (Generate.argumentMoves params).drop 6, F.Follows Lasting (· ∈ Stack.scratch) x := by
  intro x hx
  obtain ⟨i, hi⟩ := mem_iff_getElem?.mp hx
  rw [getElem?_drop] at hi
  obtain ⟨p, hp, rfl⟩ := getElem?_argumentMoves hi
  rcases incoming_cases (6 + i) with ⟨_, _, hlt, _⟩ | ⟨_, d, hmem⟩
  · omega
  · rw [hmem]
    refine follows_parameter (hcovered p hp) ?_ (by decide) (by decide) (fun _ => by decide) ?_
    · intro r hr
      obtain rfl : r = .rbp := mem_singleton.mp hr
      exact ⟨⟨_, rfl⟩, fun _ => nofun, by decide⟩
    · simp only [Stack.scratch, mem_cons, not_mem_nil, or_false]
      rintro r (rfl | rfl | rfl) <;> exact ⟨_, rfl⟩

/-- What parameters are moved from depends on machine registers and memory only. -/
theorem value_incoming {s u : State} (hregs : ∀ r, ¬ (∃ n, r = .abstract n) → u.get r = s.get r)
    (hmemory : u.memory = s.memory) (i : Nat) :
    img.value u (Generate.incoming i) = img.value s (Generate.incoming i) ∧
      ∀ m ∈ (Generate.incoming i).words, img.address u m = img.address s m := by
  have hmachine (q : MachineReg) : u.get (.machine q) = s.get (.machine q) :=
    hregs _ fun ⟨n, hn⟩ => nomatch hn
  rcases incoming_cases i with ⟨q, _, _, hreg⟩ | ⟨_, d, hmem⟩
  · rw [hreg]
    exact ⟨congrArg Except.ok (hmachine q), fun _ => nofun⟩
  · have haddress : img.address u (.offset .rbp d) = img.address s (.offset .rbp d) := by
      rw [address_eq, address_eq]
      show Except.ok (u.get .rbp + 0 + d) = Except.ok (s.get .rbp + 0 + d)
      rw [hmachine .rbp]
    rw [hmem]
    refine ⟨?_, fun m hm => mem_singleton.mp hm ▸ haddress⟩
    simp only [Image.value, haddress, State.load, hmemory]

/-- The moves of parameters on the stack leave in the slot of each what it stands for. -/
theorem parameters_taken (hnodup : params.Nodup) (hcovered : ∀ p ∈ params, F.slots[p]? ≠ none) :
    ∃ blocks, (Generate.argumentMoves params).mapM (Stack.instr F.slots) = .ok blocks ∧
      ∀ img t vs, F.Stands t → params.length = vs.length → F.Finds img t vs →
        ∃ t', img.execAll blocks.flatten t = .ok t' ∧
          ∀ (i : Nat) p v k, params[i]? = some p → vs[i]? = some v → F.slots[p]? = some k →
            t'.load (slotAddress F.base k) = .ok v := by
  obtain ⟨first, hfirst, hfirst₂⟩ := Frame.exists_blocks
    fun x hx => (follows_first hcovered x hx).exists_block
  obtain ⟨rest, hrest, hrest₂⟩ := Frame.exists_blocks
    fun x hx => (follows_rest hcovered x hx).exists_block
  refine ⟨first ++ rest, ?_, fun img t vs hstands hlength hfinds => ?_⟩
  · rw [← take_append_drop 6 (Generate.argumentMoves params)]
    exact Stack.mapM_instr_append hfirst hrest
  have hname : ∀ p ∈ params, Reg.ofName p = .abstract p := by
    grind [F.assigned.abstract]
  have hag := Frame.holds_view hstands
  have hview : ∀ u : State, (∀ r, ¬ (∃ n, r = .abstract n) → u.get r = (F.view t).get r) →
      ∀ r, ¬ (∃ n, r = .abstract n) → u.get r = t.get r := by
    intro u hu r hr
    rw [hu r hr]
    cases r with
    | abstract n => exact absurd ⟨n, rfl⟩ hr
    | machine q | rip => rfl
  -- with parameters as registers, the moves run and leave the frame alone
  obtain ⟨s', hseq, hparams⟩ : ∃ s', Seq img (Machine.Apart F.Word img)
      (Generate.argumentMoves params) (F.view t) s' ∧
        List.Forall₂ (fun p v => s'.get (.ofName p) = v) params vs := by
    refine argumentMoves_run hlength hnodup hname ?_ ?_
    · intro i v hv d u hu hmemory
      refine ⟨fun m hm c hc => (hfinds i v hv).2 m hm c ?_, nofun⟩
      rwa [(value_incoming (hview u hu) hmemory i).2 m hm] at hc
    · intro i v hv u hu hmemory
      rw [(value_incoming (hview u hu) hmemory i).1]
      exact (hfinds i v hv).1
  rw [← take_append_drop 6 (Generate.argumentMoves params)] at hseq
  obtain ⟨u, hseq₁, hseq₂⟩ := hseq.exists_of_append
  obtain ⟨t₁, hrun₁, hag₁⟩ := Frame.follow_blocks hseq₁ (by unfold Relay; decide)
    (fun r hr => ⟨scratch_free (mem_scratch_of_relay hr), fun h => h.2 hr⟩) (hag.mono fun r hr => hr.1)
    (follows_first hcovered) hfirst₂
  obtain ⟨t₂, hrun₂, hag₂⟩ := Frame.follow_blocks hseq₂ (by decide)
    (fun r hr => ⟨scratch_free hr, fun h => h.2 hr⟩)
    (hag₁.mono fun r hr => .inl ⟨hr.1, fun h => hr.2 (mem_scratch_of_relay h)⟩)
    (follows_rest hcovered) hrest₂
  refine ⟨t₂, ?_, fun i p v k hp hv hk => ?_⟩
  · rw [flatten_append, Image.execAll_append, hrun₁]
    exact hrun₂
  · obtain ⟨v', hv', hparam⟩ := getElem?_of_forall₂ hparams hp
    obtain rfl := Option.some.inj (hv.symm.trans hv')
    rw [← hparam, hname p (mem_of_getElem? hp)]
    exact hag₂.slot hk

end

/-- What is known of tiles: the shape of their code, and that they compute in every setting. -/
def Known (own : Owner) (e : Expr) (t : Tile Reg) : Prop :=
  ∀ S : Option Setting, S.elim (Shaped preparing own e t) fun S => S.IsTile own e t

theorem known_rules : Rules Known := by
  refine Rules.all (P := fun S own e t =>
    Option.elim S (Shaped preparing own e t) fun S : Setting => S.IsTile own e t) fun S => ?_
  cases S with
  | none => exact shaped_rules ⟨.inl rfl, .inr (.inl rfl)⟩
  | some S => exact S.rules

/-- The abstract registers of code have slots. -/
def Frame.Covers (F : Frame) (code : List Instr) : Prop :=
  ∀ x ∈ code, ∀ n, .abstract n ∈ x.namedRegs → F.slots[n]? ≠ none

section

variable {F : Frame} {f : Expr} {args : List Expr} {own : Owner} {target : Tile Operand}
  {code : List Instr} {operands : List Operand}

/-- The code of a call before the moves of its arguments into registers. -/
def pushing (before calling : Bytes) (target : Tile Operand) (code : List Instr)
    (operands : List Operand) : List Instr :=
  .comment before :: (target.code ++ (code ++ .comment calling ::
    ((if (operands.length - MachineReg.arguments.length) % 2 = 0 then []
      else [.arith .sub (.reg .rsp) (.imm 8)]) ++
        ((operands.drop MachineReg.arguments.length).map .push).reverse)))

theorem pushing_append_moving (before calling : Bytes) (target : Tile Operand) (code : List Instr)
    (operands : List Operand) : pushing before calling target code operands ++ moving operands =
      arranging before calling target code operands := by
  simp [pushing, moving, arranging, placeArgs, passArgs]

variable (htarget : IsCallee Known own f target) (hargs : IsArgs Known own args code operands)
  (hf : WellNamed f) (hnamed : ∀ a ∈ args, WellNamed a)

include htarget hf in
theorem shape_target : preparing.Code target.code ∧ preparing.Allows (.call target.result) := by
  obtain ⟨hcode, hcall⟩ := (htarget.mono fun h => h none).shape (admits_preparing hf)
  exact ⟨hcode.mono (issuedTo_preparing_le own), hcall.mono (issuedTo_preparing_le own)⟩

include hargs hnamed in
theorem shape_arguments : preparing.Code code ∧ ∀ a ∈ operands, preparing.Source a := by
  obtain ⟨hcode, _, hsources⟩ :=
    (hargs.mono fun h => h none).shape fun a ha => admits_preparing (hnamed a ha)
  exact ⟨hcode.mono (issuedTo_preparing_le own),
    fun a ha => (hsources a ha).mono (issuedTo_preparing_le own)⟩

include htarget hargs hf hnamed in
theorem shape_pushing (before calling : Bytes) :
    preparing.Code (pushing before calling target code operands) := by
  obtain ⟨hcode, hsources⟩ := shape_arguments hargs hnamed
  simp only [pushing, Shape.code_cons, Shape.code_append]
  refine ⟨.comment _, (shape_target htarget hf).1, hcode, .comment _, ?_, ?_⟩
  · split
    · exact Shape.code_nil
    · exact Shape.code_cons.mpr ⟨.stack (.inr rfl) trivial, Shape.code_nil⟩
  · intro x hx
    obtain ⟨a, ha, rfl⟩ := mem_map.mp (mem_reverse.mp hx)
    exact .push (hsources a (mem_of_mem_drop ha))

include hargs hnamed in
theorem follows_moving (hcovers : F.Covers (moving operands)) :
    ∀ x ∈ moving operands, F.Follows Lasting Relay x := by
  intro x hx
  have hcovered := hcovers x hx
  obtain ⟨⟨q, a⟩, hqa, rfl⟩ := mem_map.mp (mem_reverse.mp hx)
  obtain ⟨hq, ha⟩ := of_mem_zip hqa
  exact follows_move hq ((shape_arguments hargs hnamed).2 a ha) fun n hn =>
    hcovered n (mem_append_right _ hn)

include htarget hf in
theorem trusts_target (hcovers : F.Covers [.call target.result]) :
    ∀ r ∈ target.result.regs, F.keeping.Trusts Lasting r := by
  intro r hr
  have hnames : preparing.Names r := by
    have hcall := (shape_target htarget hf).2
    generalize target.result = a at hcall hr
    cases hcall with
    | callSymbol _ => cases hr
    | call h => exact h.names_of_mem hr
  refine trusts_of_preparing (cases_of_preparing (.inl hnames)) ?_
  rintro n rfl
  exact hcovers _ mem_cons_self n (mem_named_of_regs hr)

include htarget hf in
theorem abstractMem_target (img : Image) {m : Mem} (h : target.result = .mem m) :
    AbstractMem m := by
  cases htarget with
  | symbol n => simp [Const.ofName] at h
  | operand _ hoperand =>
    cases hoperand with
    | imm _ => simp [Operand.imm] at h
    | place hplace =>
      cases hplace with
      | reg _ => cases h
      | mem hm =>
        cases h
        exact (hm.mono fun ht => ht (some (plainSetting img))).abstractMem
          (WellNamed.tempNamed hf)

include htarget in
theorem target_ne_mem (h : ∀ a, f ≠ .mem a) (m : Mem) : target.result ≠ .mem m := by
  cases htarget with
  | symbol n => exact nofun
  | operand _ hoperand =>
    cases hoperand with
    | imm _ => exact nofun
    | place hplace =>
      cases hplace with
      | reg _ => exact nofun
      | mem _ => exact absurd rfl (h _)

end

/-- The code of a call on the stack comes to the call with its target loaded. It has the value that
it had before the statement, and the registers hold their arguments, but for `r9` where it is
lost to the base of the target. -/
theorem arguments_handed {F : Frame} {f : Expr} {args : List Expr} {own : Owner}
    {target : Tile Operand} {code : List Instr} {operands : List Operand}
    (htarget : IsCallee Known own f target) (hargs : IsArgs Known own args code operands)
    (hf : WellNamed f) (hnamed : ∀ a ∈ args, WellNamed a) (before calling : Bytes)
    (hcovers : F.Covers ((pushing before calling target code operands ++ moving operands) ++
      [.call target.result])) :
    ∃ blocks, (pushing before calling target code operands ++ moving operands).mapM
        (Stack.instr F.slots) = .ok blocks ∧
      ∀ img t vs, F.Stands t → Handed F img (F.view t) f args vs →
        ∃ s₁ t₁, Seq img (fun _ _ => True)
            (pushing before calling target code operands ++ moving operands) (F.view t) s₁ ∧
          (∀ n, UserName n → s₁.get (.ofName n) = (F.view t).get (.ofName n)) ∧
          img.execAll (blocks.flatten ++ (Stack.inPlace F.slots target.result .r9 .r10).1) t =
            .ok t₁ ∧
          ((∀ n, f ≠ .name n) → ∀ v, (plainSetting img).value (F.view t) f = some v →
            img.value t₁ (Stack.inPlace F.slots target.result .r9 .r10).2 = .ok v) ∧
          (∀ (i : Nat) r v, MachineReg.arguments[i]? = some r → vs[i]? = some v → r ≠ .r9 →
            t₁.get (.machine r) = v) ∧
          ∀ v, vs[5]? = some v → (t₁.get .r9 = v ↔ ∀ m b, target.result = .mem m →
            m.base = some (.abstract b) → s₁.get (.abstract b) = v) := by
  have hshape := shape_pushing htarget hargs hf hnamed before calling
  obtain ⟨hboth, hcall⟩ := forall_mem_append.mp hcovers
  obtain ⟨hpushing, hmoving⟩ := forall_mem_append.mp hboth
  have hfollows := follows_moving hargs hnamed hmoving
  have hblock : ∀ x ∈ pushing before calling target code operands,
      ∃ block, Stack.instr F.slots x = .ok block ∧ Block inFrame F.slots (· ∈ Stack.scratch) x block :=
    fun x hx => instr_block_of_allows (hshape x hx) (by decide) (by decide) fun _ => by decide
  obtain ⟨first, hfirst, hfirst₂⟩ := Frame.exists_blocks fun x hx =>
    (hblock x hx).imp fun _ => And.left
  obtain ⟨moves, hmoves, hmoves₂⟩ := Frame.exists_blocks fun x hx => (hfollows x hx).exists_block
  refine ⟨first ++ moves, Stack.mapM_instr_append hfirst hmoves, fun img t vs hstands h => ?_⟩
  have hsparing : ∀ {e t}, Known own e t → (sparing img F.Word).IsTile own e t := fun h =>
    h (some (sparing img F.Word))
  obtain ⟨s₁, hseq, hregs, husers, hworth⟩ := h.arrange (htarget.mono hsparing)
    (hargs.mono hsparing) hf hnamed before calling
  rw [← pushing_append_moving] at hseq
  obtain ⟨u, hseq₁, hseq₂⟩ := hseq.exists_of_append
  -- what stands before the moves of arguments
  obtain ⟨t₁, hrun₁, hag₁⟩ := Frame.follow_blocks hseq₁ (by decide)
    (fun r hr => ⟨scratch_free hr, fun h => h.2 hr⟩)
    ((Frame.holds_view hstands).mono fun r hr => hr.1)
    (fun x hx => follows_of_preparing (hshape x hx) (fun a ha => by
      have hfalls := hseq₁.falls_of_mem hx
      rw [ha] at hfalls
      cases hfalls) (hpushing x hx)) hfirst₂
  -- the moves of arguments
  obtain ⟨t₂, hrun₂, hag₂⟩ := Frame.follow_blocks hseq₂ (by unfold Relay; decide)
    (fun r hr => ⟨scratch_free (mem_scratch_of_relay hr), fun h => h.2 (mem_scratch_of_relay hr)⟩)
    (hag₁.mono fun r hr => .inl hr) hfollows hmoves₂
  have hmoved : ∀ (i : Nat) r v, MachineReg.arguments[i]? = some r → vs[i]? = some v →
      t₂.get (.machine r) = v := by
    intro i r v hr hv
    have hlt : i < operands.length := by
      rw [hargs.length_eq, h.values.length_eq]
      exact (List.getElem?_eq_some_iff.mp hv).1
    have hzip : (r, operands[i]) ∈ MachineReg.arguments.zip operands :=
      mem_of_getElem? (getElem?_zip_eq_some.mpr ⟨hr, getElem?_eq_getElem hlt⟩)
    have hmove : Instr.mov (.reg (.machine r)) operands[i] ∈ moving operands :=
      mem_reverse.mpr (mem_map.mpr ⟨_, hzip, rfl⟩)
    rw [hag₂.reg (.inr ⟨_, hmove, mem_cons_self⟩) (F.free_machine r), hregs i r v hr hv]
  -- the target is loaded
  have hapart : ∀ m ∈ target.result.words, ∀ c, img.address s₁ m = .ok c → ¬ F.Word c := by
    cases htarget with
    | symbol n => exact fun m hm => nomatch hm
    | operand hname _ => exact (hworth hname).2
  obtain ⟨t₃, hrun₃, hvalue, hkeep, hbase, hnone⟩ := target_loaded hag₂ (fun r hr => .inl hr)
    (trusts_target htarget hf hcall) (fun m hm => abstractMem_target htarget hf img hm) hapart
  refine ⟨s₁, t₃, hseq.mono fun _ _ _ => trivial, husers, ?_, ?_, ?_, ?_⟩
  · rw [flatten_append, append_assoc, Image.execAll_append, hrun₁]
    show img.execAll (moves.flatten ++ _) t₁ = _
    rw [Image.execAll_append, hrun₂]
    exact hrun₃
  · intro hname v hv
    rw [(hworth hname).1 v hv] at hvalue
    generalize img.value t₃ _ = out at hvalue
    cases hvalue
    rfl
  · intro i r v hr hv h9
    have hne : ∀ q ∈ MachineReg.arguments, q ≠ .r10 := by decide
    rw [hkeep _ (fun h => h9 (Reg.machine.inj h))
      fun h => hne r (mem_of_getElem? hr) (Reg.machine.inj h), hmoved i r v hr hv]
  · intro v hv
    by_cases hloaded : ∃ m b, target.result = .mem m ∧ m.base = some (.abstract b)
    · grind
    · have hfree : ∀ m b, target.result = .mem m → m.base ≠ some (.abstract b) :=
        fun m b hm hb => hloaded ⟨m, b, hm, hb⟩
      rw [hnone hfree, hmoved 5 .r9 v rfl hv]
      exact iff_of_true rfl fun m b hm hb => absurd hb (hfree m b hm)

/-- Where everything is on the stack, arguments survive the registers that code goes through, but
for one. In every body whose statements selection takes, the code of a call comes to its call
instruction with the target worth what it was before the statement and with each argument in its
register, except that `r9` holds the base of the target's address instead of the sixth argument if
the target has a base in a temporary. Behind the moves of a function's parameters the slot of each
holds the argument that it stands for. -/
theorem arguments_in_place_iff {func : Name} {body : List NodeStmt}
    (hnumbered : ∃ num : Numbering, num.Unique ∧ ∀ s ∈ body, s.Follows num)
    (hvalid : ∀ s ∈ body, s.plain.Valid) :
    (∃ codes memo, (body.mapM (coverStmt func)).run.run .empty = (.ok codes, memo) ∧
      codes.length = body.length ∧
      ∀ (k : Nat) (st : NodeStmt) f args result, body[k]? = some st →
        st.plain = .call f args result → NamesChecked func st.plain →
        ∃ before target behind, codes[k]? = some (before ++ .call target :: behind) ∧
          ((∀ a, f ≠ .mem a) → ∀ m, target ≠ .mem m) ∧
          ∀ F : Frame, F.Covers (before ++ [.call target]) →
            ∃ blocks load loaded, before.mapM (Stack.instr F.slots) = .ok blocks ∧
              Stack.instr F.slots (.call target) = .ok (load ++ [.call loaded]) ∧
              (∀ n, f = .name n → loaded = .const (.sym n)) ∧
              ∀ img t vs, F.Stands t → Handed F img (F.view t) f args vs →
                ∃ s₁ t₁, Seq img (fun _ _ => True) before (F.view t) s₁ ∧
                  (∀ n, UserName n → s₁.get (.ofName n) = (F.view t).get (.ofName n)) ∧
                  img.execAll (blocks.flatten ++ load) t = .ok t₁ ∧
                  ((∀ n, f ≠ .name n) → ∀ v, (plainSetting img).value (F.view t) f = some v →
                    img.value t₁ loaded = .ok v) ∧
                  (∀ (i : Nat) r v, MachineReg.arguments[i]? = some r → vs[i]? = some v →
                    r ≠ .r9 → t₁.get (.machine r) = v) ∧
                  ∀ v, vs[5]? = some v → (t₁.get .r9 = v ↔ ∀ m b, target = .mem m →
                    m.base = some (.abstract b) → s₁.get (.abstract b) = v)) ∧
    ∀ params (F : Frame), params.Nodup → (∀ p ∈ params, F.slots[p]? ≠ none) →
      ∃ blocks, (Generate.argumentMoves params).mapM (Stack.instr F.slots) = .ok blocks ∧
        ∀ img t vs, F.Stands t → params.length = vs.length → F.Finds img t vs →
          ∃ t', img.execAll blocks.flatten t = .ok t' ∧
            ∀ (i : Nat) p v k, params[i]? = some p → vs[i]? = some v → F.slots[p]? = some k →
              t'.load (slotAddress F.base k) = .ok v := by
  refine ⟨?_, fun params F hnodup hcovered => parameters_taken hnodup hcovered⟩
  obtain ⟨codes, memo, hrun, hcodes⟩ := @exists_codes func body hnumbered hvalid
  obtain ⟨own, hblocks⟩ := hcodes Known known_rules
  refine ⟨codes, memo, hrun, hblocks.length_eq.symm, ?_⟩
  intro k st f args result hk hst hchecked
  obtain ⟨code, hcode, hstmt⟩ := getElem?_of_forall₂ hblocks hk
  rw [hst] at hstmt hchecked
  obtain ⟨hf, hnamed, _⟩ := hchecked.call_named
  cases hstmt with
  | @call _ _ _ target code operands before calling called htarget hargs =>
    refine ⟨pushing before calling target code operands ++ moving operands, target.result,
      callTail result (stackWords operands.length) ++ [.comment called], ?_,
      target_ne_mem htarget, fun F hcovers => ?_⟩
    · rw [hcode, callCode_eq, pushing_append_moving]
      simp [arranging]
    obtain ⟨blocks, hblocks, hhanded⟩ :=
      arguments_handed htarget hargs hf hnamed before calling hcovers
    refine ⟨blocks, _, _, hblocks, rfl, ?_, hhanded⟩
    rintro n rfl
    cases htarget with
    | symbol n =>
      have hne : n ≠ [] := hf
      simp only [Const.ofName, List.isEmpty_iff, if_neg hne]
    | operand hname _ => exact absurd rfl (hname n)

/-- Calls a word of memory that a temporary points to, with six arguments. -/
def farCall : List NodeStmt :=
  [⟨8, .call (.mem 1 (.temp 0 "p")) [.const 2 1, .const 3 2, .const 4 3, .const 5 4, .const 6 5,
    .const 7 6] none⟩]

/-- A frame with a slot for the temporary. -/
def farFrame : Frame := ⟨chasingSlots, 8192, chasing_fits.assigned⟩

/-- A state in which the temporary points to the first word of memory. -/
def farStart : State :=
  { (frameStart 8192).set .rsp 8184 with memory := Memory.empty.write 8184 4096 }

theorem follows_farCall : ∃ num : Numbering, num.Unique ∧ ∀ s ∈ farCall, s.Follows num := by
  refine exists_numbering [.temp "p", .mem (.temp "p"), .const 1, .const 2, .const 3, .const 4,
    .const 5, .const 6] ?_
  simp [farCall, NodeStmt.Follows, nodes, Node.Follows, NodeStmt.plain, Stmt.map, Node.expr]

theorem handed_farCall : Handed farFrame (imageOf ∅ []) (farFrame.view farStart)
    (.mem (.temp "p")) [.const 1, .const 2, .const 3, .const 4, .const 5, .const 6]
    [1, 2, 3, 4, 5, 6] := by
  have hrsp : (farFrame.view farStart).get .rsp = 8184 := by decide +kernel
  have hnone : ∀ a, ¬ Pushes (farFrame.view farStart) 6 a := by
    rintro a ⟨hlo, hhi⟩
    rw [hrsp] at hlo hhi
    exact absurd (Int.lt_of_le_of_lt hlo hhi) (by decide)
  have hreads : (plainSetting (imageOf ∅ [])).reads (farFrame.view farStart) (.mem (.temp "p")) =
      [4096] := by decide +kernel
  refine ⟨?_, fun _ => ⟨0, by decide +kernel⟩, ?_, fun a ha => absurd ha (hnone a), ?_⟩
  · simp only [forall₂_cons]
    exact ⟨rfl, rfl, rfl, rfl, rfl, rfl, .nil⟩
  · refine forall_mem_cons.mpr ⟨fun a ha => ⟨hnone a, ?_⟩, fun e he a ha => ?_⟩
    · rw [hreads] at ha
      obtain rfl := mem_singleton.mp ha
      rintro ⟨n, k, hn, hword⟩
      obtain ⟨rfl, rfl⟩ := chasingSlots_eq_some.mp hn
      exact absurd hword (by decide)
    · have hconst : ∀ e ∈ [Expr.const 1, .const 2, .const 3, .const 4, .const 5, .const 6],
          ∃ c, e = .const c := by simp
      obtain ⟨c, rfl⟩ := hconst e he
      cases ha
  · exact ⟨by rw [hrsp]; decide, by rw [hrsp]; decide, by rw [hrsp]; decide⟩

/-- The sixth argument of the call is lost. -/
theorem farCall_loses : ∃ codes before target behind blocks load loaded t,
    ((farCall.mapM (coverStmt "f")).run.run .empty).1 = .ok codes ∧
      codes[0]? = some (before ++ .call target :: behind) ∧
      before.mapM (Stack.instr farFrame.slots) = .ok blocks ∧
      Stack.instr farFrame.slots (.call target) = .ok (load ++ [.call loaded]) ∧
      (imageOf ∅ []).execAll (blocks.flatten ++ load) farStart = .ok t ∧
      t.get (.machine .r8) = 5 ∧ t.get .r9 ≠ 6 := by
  have hvalid : ∀ s ∈ farCall, s.plain.Valid := by
    simp [farCall, NodeStmt.plain, Stmt.map, Node.expr, Stmt.Valid, Expr.Valid]
  obtain ⟨⟨codes, memo, hrun, hlength, h⟩, _⟩ :=
    @arguments_in_place_iff "f" farCall follows_farCall hvalid
  obtain ⟨before, target, behind, hcode, _, h⟩ := h 0 _ _ _ _ rfl rfl (by decide +kernel)
  have hflat : ((((farCall.mapM (coverStmt "f")).run.run .empty).1.toOption).getD []).flatten =
      before ++ .call target :: behind := by
    cases codes with
    | nil => cases hcode
    | cons code rest =>
      cases hcode
      rw [hrun, List.length_eq_zero_iff.mp (Nat.succ.inj hlength), Except.toOption,
        Option.getD_some, List.flatten_singleton]
  -- the call is the only one, and its target has the temporary as its base
  have htarget : target = .mem (.offset (.abstract "p") 0) := by
    have hcalls : (((((farCall.mapM (coverStmt "f")).run.run .empty).1.toOption).getD
        []).flatten).filter isCall = [.call (.mem (.offset (.abstract "p") 0))] := by
      decide +kernel
    have hmem : Instr.call target ∈ (before ++ .call target :: behind).filter isCall :=
      List.mem_filter.mpr ⟨by simp, rfl⟩
    rw [← hflat, hcalls] at hmem
    exact Instr.call.inj (List.mem_singleton.mp hmem)
  have hcovers : farFrame.Covers (before ++ [.call target]) := by
    have hnames : ∀ x ∈ ((((farCall.mapM (coverStmt "f")).run.run .empty).1.toOption).getD
        []).flatten, ∀ r ∈ x.namedRegs, r.isMachine = true ∨ r.name = "p" := by decide +kernel
    rw [hflat] at hnames
    intro x hx n hn
    have hx : x ∈ before ++ .call target :: behind := by
      simp only [List.mem_append, List.mem_cons, List.not_mem_nil, or_false] at hx ⊢
      exact hx.imp_right .inl
    have hp : n = "p" := (hnames x hx _ hn).resolve_left Bool.false_ne_true
    have hslot : chasingSlots[n]? = some 1 := chasingSlots_eq_some.mpr ⟨hp.symm, rfl⟩
    intro hnone
    cases hnone.symm.trans hslot
  obtain ⟨blocks, load, loaded, hblocks, hcall, _, h⟩ := h farFrame hcovers
  have hstands : farFrame.Stands farStart := by
    refine ⟨rfl, fun {n k} hn => ?_⟩
    obtain ⟨rfl, rfl⟩ := chasingSlots_eq_some.mp hn
    show State.checkAddress (slotAddress 8192 1) = .ok ()
    decide
  obtain ⟨s₁, t₁, _, husers, hexec, _, hregs, hr9⟩ := h _ _ _ hstands handed_farCall
  refine ⟨codes, before, target, behind, blocks, load, loaded, t₁, by rw [hrun], hcode, hblocks,
    hcall, hexec, hregs 4 .r8 5 rfl rfl (by decide), fun h6 => ?_⟩
  have hcheck : Generate.checkTemp "f" "p" = .ok () := by decide +kernel
  have hp : UserName "p" := .of_checkTemp (by decide) hcheck
  have hword : s₁.get (.abstract "p") = 6 := (hr9 6 rfl).mp h6 _ "p" htarget rfl
  rw [← hp.ofName_eq, husers "p" hp] at hword
  exact absurd hword (by decide +kernel)

end X64Backend.Alloc
