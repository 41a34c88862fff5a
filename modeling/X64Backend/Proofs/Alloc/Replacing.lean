import X64Backend.Alloc.Stack
import X64Backend.Proofs.Alloc.Fetches
import X64Backend.Proofs.Names

/-! # What allocation puts in the place of an instruction

Whether some registers live in slots or all is on the stack, an instruction gives way to a
block that stands for it.
-/

namespace X64Backend.Alloc

open Asm List

variable {a b : Supply} {r : Reg}

/-! ## Some registers in slots -/

/-- Registers that were issued between two states of a supply. -/
def Issued (first last : Supply) (r : Reg) : Prop :=
  ∃ j, first.issued ≤ j ∧ j < last.issued ∧ r = .issued j

theorem Issued.mono {c d : Supply} (h : Issued b c r) (hab : a.issued ≤ b.issued)
    (hcd : c.issued ≤ d.issued) : Issued a d r := by
  obtain ⟨j, hj, hj', rfl⟩ := h
  exact ⟨j, Nat.le_trans hab hj, Nat.lt_of_lt_of_le hj' hcd, rfl⟩

theorem Issued.disjoint {c : Supply} (h : Issued a b r) : ¬ Issued b c r := by
  rintro ⟨k, hk, _, heq⟩
  obtain ⟨j, _, hj, rfl⟩ := h
  have := Reg.issued_inj.mp heq
  omega

theorem Issued.ne_rip (h : Issued a b r) : r ≠ .rip := by
  obtain ⟨j, _, _, rfl⟩ := h
  nofun

/-- Fetches into registers issued one after the other. -/
theorem Loads.append_issued {slots : Slots} {c : Supply} {rs rs' : List Reg}
    {load load' : List Instr} {P Q R : Fetches → Prop} (h : Loads slots (Issued a b) rs load P)
    (h' : Loads slots (Issued b c) rs' load' Q) (hab : a.issued ≤ b.issued)
    (hbc : b.issued ≤ c.issued) (hR : ∀ fs fs', P fs → Q fs' → R (fs ++ fs')) :
    Loads slots (Issued a c) (rs ++ rs') (load ++ load') R :=
  h.append h' (fun _ hr => ⟨hr.mono (Nat.le_refl _) hbc, hr.disjoint⟩)
    (fun _ hr => hr.mono hab (Nat.le_refl _)) hR

namespace Spilling

variable {slots : Slots} {supply : Supply}
variable {supply' : Supply} {x : Instr}

theorem issued_of_fresh (h : supply'.issued = supply.issued + 1) :
    Issued supply supply' (.issued supply.issued) :=
  ⟨_, Nat.le_refl _, by omega, rfl⟩

theorem readReg_loads (r : Reg) : Yields supply (readReg slots r) fun supply' p =>
    Loads slots (Issued supply supply') [r] p.1 fun fs =>
      Carried slots fs r p.2 ∧ (r ≠ .rip → p.2 ≠ .rip) := by
  unfold readReg
  split
  next h => exact .pure (.nil ⟨.kept (slot?_eq_none.mp h), id⟩)
  next m h =>
    obtain ⟨k, hk, rfl⟩ := slot?_eq_some.mp h
    apply Yields.bind Yields.fresh
    rintro supply' q _ ⟨rfl, hnext⟩
    have hq := issued_of_fresh hnext
    exact .pure (.single hq hk ⟨.fetched hk mem_cons_self, fun _ => hq.ne_rip⟩)

theorem address_loads (m : Mem) : Yields supply (address slots m) fun supply' p =>
    Loads slots (Issued supply supply') m.namedRegs p.1 fun fs => CarriedMem slots fs m p.2 := by
  obtain ⟨base, index, disp⟩ := m
  have hbase : Yields supply (readBase slots base) fun supply' p =>
      Loads slots (Issued supply supply') base.toList p.1 fun fs => CarriedBase slots fs base p.2 := by
    unfold readBase
    split
    next => exact .pure (.nil .none)
    next => exact .pure (.nil .rip)
    next r hr =>
      apply Yields.bind (readReg_loads r)
      intro supply' p _ hp
      exact .pure (hp.map fun fs h => .reg hr (h.2 hr) h.1)
  have hindex : ∀ supply : Supply, Yields supply (readIndex slots index) fun supply' p =>
      Loads slots (Issued supply supply') (index.map Prod.fst).toList p.1 fun fs =>
        CarriedIndex slots fs index p.2 := by
    intro supply
    unfold readIndex
    split
    next => exact .pure (.nil .none)
    next r scale =>
      apply Yields.bind (readReg_loads r)
      intro supply' p _ hp
      exact .pure (hp.map fun fs h => .reg h.1)
  unfold address
  apply Yields.bind hbase
  intro supply' p hle hp
  apply Yields.bind (hindex supply')
  intro supply'' p' hle' hp'
  refine .pure (hp.append_issued hp' hle hle' fun fs fs' h h' => ?_)
  exact ⟨h.mono (subset_append_left fs fs'), h'.mono (subset_append_right fs fs'), rfl⟩

theorem inPlace_loads (a : Operand) : Yields supply (inPlace slots a) fun supply' p =>
    Loads slots (Issued supply supply') a.namedRegs p.1 fun fs => PlacedAs inFrame slots fs a p.2 := by
  cases a with
  | reg r => exact .pure (.nil (placedAs_slot? r))
  | mem m =>
    apply Yields.bind (address_loads m)
    intro supply' p _ hp
    exact .pure (hp.map fun fs h => .mem h)
  | const c => exact .pure (.nil (.const c))
  | absent => exact .pure (.nil .absent)

/-- What is loaded is read, and is a word of memory only where it was one. -/
theorem loaded_loads (a : Operand) : Yields supply (loaded slots a) fun supply' p =>
    Loads slots (Issued supply supply') a.namedRegs p.1 (fun fs => ReadAs inFrame slots fs a p.2) ∧
      p.2.words.length = a.words.length := by
  cases a with
  | reg r =>
    apply Yields.bind (readReg_loads r)
    intro supply' p _ hp
    exact .pure ⟨hp.map fun fs h => .reg h.1, rfl⟩
  | mem m =>
    apply Yields.bind (address_loads m)
    intro supply' p _ hp
    exact .pure ⟨hp.map fun fs h => .mem h, rfl⟩
  | const c => exact .pure ⟨.nil (.const c), rfl⟩
  | absent => exact .pure ⟨.nil .absent, rfl⟩

theorem written_as (r : Reg) : Yields supply (written slots r) fun supply' p =>
    WrittenAs inFrame slots (Issued supply supply') r p.1 p.2 := by
  unfold written
  split
  next h => exact .pure (.kept (slot?_eq_none.mp h))
  next m h =>
    obtain ⟨k, hk, rfl⟩ := slot?_eq_some.mp h
    apply Yields.bind Yields.fresh
    rintro supply' q _ ⟨rfl, hnext⟩
    exact .pure (.stored hk (issued_of_fresh hnext))

/-- Fetches in front of what is written: the code for an instruction that computes a register. -/
theorem writing_standsFor {rs : List Reg} {load : List Instr} {P : Fetches → Prop} {begun : Supply}
    {make : Reg → Instr} {dst : Reg} (hle : begun.issued ≤ supply.issued)
    (hload : Loads slots (Issued begun supply) rs load P) (hrs : rs ⊆ x.namedRegs)
    (hmake : ∀ {U fs e store}, WrittenAs inFrame slots U dst e store → P fs →
      Core inFrame slots U fs x (make e) store)
    (hone : ∀ e, x.words.length ≤ 1 → (make e).words.length ≤ 1) :
    Yields supply (do
      let (d, store) ← written slots dst
      return load ++ make d :: store) fun supply' block =>
        StandsFor slots (Issued begun supply') x block := by
  apply Yields.bind (written_as dst)
  intro supply' p hle' hp
  have hp' : WrittenAs inFrame slots (Issued begun supply') dst p.1 p.2 :=
    hp.mono fun r hr => hr.mono hle (Nat.le_refl _)
  refine .pure (Loads.standsFor (hload.imp (fun r hr => hr.mono (Nat.le_refl _) hle') fun fs h => ?_)
    hrs (hone p.1))
  exact hmake hp' h

/-- Fetches for two operands: the code for an instruction with a word of memory. -/
theorem pair_standsFor {m : Mem} {a : Operand} {make : Mem → Operand → Instr}
    (hrs : m.namedRegs ++ a.namedRegs ⊆ x.namedRegs)
    (hmake : ∀ {U fs n b}, CarriedMem slots fs m n → ReadAs inFrame slots fs a b →
      Core inFrame slots U fs x (make n b) [])
    (hone : ∀ n b, b.words.length = a.words.length → x.words.length ≤ 1 →
      (make n b).words.length ≤ 1) :
    Yields supply (do
      let (loadDst, m) ← address slots m
      let (loadSrc, src) ← loaded slots a
      return loadDst ++ loadSrc ++ [make m src]) fun supply' block =>
        StandsFor slots (Issued supply supply') x block := by
  apply Yields.bind (address_loads m)
  intro supply' p hle hp
  apply Yields.bind (loaded_loads a)
  intro supply'' p' hle' hp'
  refine .pure (Loads.standsFor (hp.append_issued hp'.1 hle hle' fun fs fs' h h' => ?_) hrs
    (hone p.2 p'.2 hp'.2))
  exact hmake (h.mono (subset_append_left fs fs')) (h'.mono (subset_append_right fs fs'))

theorem unary_standsFor {a : Operand} {make : Operand → Instr} (hrs : a.namedRegs ⊆ x.namedRegs)
    (hmake : ∀ {U fs b}, PlacedAs inFrame slots fs a b → Core inFrame slots U fs x (make b) [])
    (hone : ∀ b, (make b).words.length ≤ 1) :
    Yields supply (unary slots make a) fun supply' block =>
      StandsFor slots (Issued supply supply') x block := by
  apply Yields.bind (inPlace_loads a)
  intro supply' p _ hp
  exact .pure (Loads.standsFor (hp.map fun fs h => hmake h) hrs fun _ => hone p.2)

/-- Work on a copy of a slot. -/
theorem copying_standsFor {rs : List Reg} {load : List Instr} {P : Fetches → Prop} {begun : Supply}
    {make : Reg → Instr} {dst : Reg} {k : Nat} (hk : slots[dst.name]? = some k)
    (hle : begun.issued ≤ supply.issued) (hload : Loads slots (Issued begun supply) rs load P)
    (hrs : rs ++ [dst] ⊆ x.namedRegs)
    (hmake : ∀ {U fs fs' e store}, UpdatedAs inFrame slots fs' dst e store → P fs → fs ⊆ fs' →
      Core inFrame slots U fs' x (make e) store)
    (hone : ∀ e, x.words.length ≤ 1 → (make e).words.length ≤ 1) :
    Yields supply (do return load ++ (← throughCopy (.slot k) make)) fun supply' block =>
      StandsFor slots (Issued begun supply') x block := by
  have hcopy : Yields supply (throughCopy (.slot k) make) fun supply' code =>
      ∃ q, Issued supply supply' q ∧ code = .mov (.reg q) (.mem (.slot k)) ::
        make q :: [.mov (.mem (.slot k)) (.reg q)] := by
    apply Yields.bind Yields.fresh
    rintro supply' q _ ⟨rfl, hnext⟩
    exact .pure ⟨_, issued_of_fresh hnext, rfl⟩
  apply Yields.bind hcopy
  rintro supply' code hle' ⟨q, hq, rfl⟩
  have hcode : Loads slots (Issued begun supply') (rs ++ [dst])
      (load ++ [.mov (.reg q) (.mem (.slot k))]) fun fs =>
        Core inFrame slots (Issued begun supply') fs x (make q) [.mov (.mem (.slot k)) (.reg q)] := by
    refine hload.append_issued (.single hq hk (show (q, k) ∈ [(q, k)] from mem_cons_self))
      hle hle' fun fs fs' h h' => ?_
    exact hmake (.stored hk (mem_append_right fs h')) h (subset_append_left fs fs')
  have hblock := hcode.standsFor hrs (hone q)
  rw [append_assoc] at hblock
  exact .pure hblock

theorem move_standsFor (dst : Reg) (src : Operand) : Yields supply (move slots dst src)
    fun supply' block => StandsFor slots (Issued supply supply') (.mov (.reg dst) src) block := by
  apply Yields.bind (inPlace_loads src)
  intro supply' p hle hp
  obtain ⟨load, a⟩ := p
  have hrs : src.namedRegs ⊆ (Instr.mov (.reg dst) src).namedRegs := subset_cons_self dst _
  cases hdst : slot? slots dst with
  | none =>
    refine .pure (Loads.standsFor (hp.map fun fs h => ?_) hrs fun _ => words_le a)
    exact .mov (.reg (slot?_eq_none.mp hdst)) h.readAs
  | some m =>
    obtain ⟨k, hk, rfl⟩ := slot?_eq_some.mp hdst
    cases a with
    | mem n =>
      apply Yields.bind Yields.fresh
      rintro supply'' q hle' ⟨rfl, hnext⟩
      have hq : Issued supply supply'' (.issued supply'.issued) :=
        (issued_of_fresh hnext).mono hle (Nat.le_refl _)
      refine .pure (Loads.standsFor (hp.imp (fun r hr => hr.mono (Nat.le_refl _) hle')
        fun fs h => ?_) hrs fun _ => Nat.le_refl 1)
      exact .movReg (.stored hk hq) h.readAs
    | reg r | const c | absent =>
      exact .pure (Loads.standsFor (hp.map fun fs h => .mov (.slot hk) h.readAs) hrs
        fun _ => Nat.le_refl 1)

theorem operate_standsFor (op : Arith) (dst : Reg) (src : Operand) :
    Yields supply (operate slots op dst src) fun supply' block =>
      StandsFor slots (Issued supply supply') (.arith op (.reg dst) src) block := by
  apply Yields.bind (inPlace_loads src)
  intro supply' p hle hp
  obtain ⟨load, a⟩ := p
  have hrs : src.namedRegs ⊆ (Instr.arith op (.reg dst) src).namedRegs :=
    subset_cons_self dst _
  cases hdst : slot? slots dst with
  | none =>
    refine .pure (Loads.standsFor (hp.map fun fs h => ?_) hrs fun _ => words_le a)
    exact .arith (.reg (slot?_eq_none.mp hdst)) h.readAs
  | some m =>
    obtain ⟨k, hk, rfl⟩ := slot?_eq_some.mp hdst
    cases a with
    | mem n =>
      exact copying_standsFor hk hle hp (by simp [Instr.namedRegs, Operand.namedRegs])
        (fun hd h hsub => .arithReg hd (h.readAs.mono hsub)) fun _ _ => Nat.le_refl 1
    | reg r | const c | absent =>
      exact .pure (Loads.standsFor (hp.map fun fs h => .arith (.slot hk) h.readAs) hrs
        fun _ => Nat.le_refl 1)

theorem compare_standsFor (l r : Operand) : Yields supply (compare slots l r)
    fun supply' block => StandsFor slots (Issued supply supply') (.cmp l r) block := by
  cases r with
  | mem m =>
    apply Yields.bind (loaded_loads l)
    intro supply' p hle hp
    apply Yields.bind (address_loads m)
    intro supply'' p' hle' hp'
    refine .pure (Loads.standsFor (hp.1.append_issued hp' hle hle' fun fs fs' h h' => ?_)
      (List.Subset.refl _) fun h => ?_)
    · exact .cmp (h.mono (subset_append_left fs fs'))
        (.mem (h'.mono (subset_append_right fs fs')))
    · simp only [Instr.words, length_append, hp.2] at h ⊢
      exact h
  | reg q | const c | absent =>
    apply Yields.bind (inPlace_loads l)
    intro supply' p hle hp
    apply Yields.bind (loaded_loads _)
    intro supply'' p' hle' hp'
    refine .pure (Loads.standsFor (hp.append_issued hp'.1 hle hle' fun fs fs' h h' => ?_)
      (List.Subset.refl _) fun _ => ?_)
    · exact .cmp (h.readAs.mono (subset_append_left fs fs'))
        (h'.mono (subset_append_right fs fs'))
    · rw [Instr.words, length_append, hp'.2]
      exact words_le p.2

/-- There is a block for every instruction that has somewhere to write. There is none for a
condition whose register has a slot. -/
theorem instr_standsFor (htarget : hasTarget x = true)
    (hset : ∀ c d, x = .set c d → slots[d.name]? = none) :
    Yields supply (instr slots x) fun supply' block =>
      StandsFor slots (Issued supply supply') x block := by
  cases x with
  | movAbs d v =>
    have hnil : Loads slots (Issued supply supply) [] [] fun _ => True := .nil trivial
    exact writing_standsFor (Nat.le_refl _) hnil (nil_subset _) (fun hd _ => .movAbs hd)
      fun _ _ => Nat.zero_le 1
  | mov d a =>
    cases d with
    | reg d => exact move_standsFor d a
    | mem m =>
      refine pair_standsFor (List.Subset.refl _) (fun hm ha => .mov (.mem hm) ha) fun n b hb h => ?_
      simp only [Instr.words, length_append, hb] at h ⊢
      exact h
    | const c | absent => cases htarget
  | lea d m =>
    apply Yields.bind (address_loads m)
    intro supply' p hle hp
    exact writing_standsFor hle hp (subset_cons_self d _) (fun hd h => .lea hd h)
      fun _ _ => Nat.zero_le 1
  | cmp l r => exact compare_standsFor l r
  | set c d =>
    have hd := hset c d rfl
    have hcontains : ¬ slots.contains d.name = true := by
      rw [← Std.TreeMap.isSome_getElem?_eq_contains, hd]
      exact Bool.false_ne_true
    have hinstr : instr slots (.set c d) = pure [.set c d] := if_neg hcontains
    rw [hinstr]
    have hnil : Loads slots (Issued supply supply) [] [] fun fs =>
        Core inFrame slots (Issued supply supply) fs (.set c d) (.set c d) [] :=
      .nil (.set (.kept hd))
    exact .pure (hnil.standsFor (nil_subset _) id)
  | call a =>
    exact unary_standsFor (List.Subset.refl _) (fun h => .call h.readAs) fun b => words_le b
  | arith op d a =>
    cases d with
    | reg d => exact operate_standsFor op d a
    | mem m =>
      refine pair_standsFor (List.Subset.refl _) (fun hm ha => .arith (.mem hm) ha)
        fun n b hb h => ?_
      simp only [Instr.words, length_append, hb] at h ⊢
      exact h
    | const c | absent => cases htarget
  | imul d a =>
    apply Yields.bind (inPlace_loads a)
    intro supply' p hle hp
    cases hdst : slot? slots d with
    | none =>
      refine .pure (Loads.standsFor (hp.map fun fs h => ?_)
        (subset_cons_self d _) fun _ => words_le p.2)
      exact .imul (.kept (slot?_eq_none.mp hdst)) h.readAs
    | some m =>
      obtain ⟨k, hk, rfl⟩ := slot?_eq_some.mp hdst
      exact copying_standsFor hk hle hp (by simp [Instr.namedRegs])
        (fun hd h hsub => .imul hd (h.readAs.mono hsub)) fun _ _ => words_le p.2
  | imul3 d a k =>
    apply Yields.bind (inPlace_loads a)
    intro supply' p hle hp
    exact writing_standsFor hle hp (subset_cons_self d _) (fun hd h => .imul3 hd h.readAs)
      fun _ _ => words_le p.2
  | idiv a =>
    exact unary_standsFor (List.Subset.refl _) (fun h => .idiv h.readAs) fun b => words_le b
  | neg a => exact unary_standsFor (List.Subset.refl _) (fun h => .neg h) fun b => words_le b
  | shl a k => exact unary_standsFor (List.Subset.refl _) (fun h => .shl h) fun b => words_le b
  | push a =>
    exact unary_standsFor (List.Subset.refl _) (fun h => .push h.readAs) fun b => words_le b
  | jump c l | ret | cqo | popRbp | label l | comment text | absent => exact .pure (.bare rfl)

/-- Every block stands for its instruction. -/
theorem standsFor_of_instr {block : List Instr}
    (h : (instr slots x).run supply = .ok (block, supply')) :
    supply.issued ≤ supply'.issued ∧ StandsFor slots (Issued supply supply') x block := by
  have htarget : hasTarget x = true := by
    cases x with
    | mov d a | arith op d a => cases d <;> first | rfl | cases h
    | _ => rfl
  have hset : ∀ c d, x = .set c d → slots[d.name]? = none := by
    rintro c d rfl
    rw [instr] at h
    split at h
    next => cases h
    next hd => rwa [Std.TreeMap.contains_eq_isSome_getElem?, Option.not_isSome_iff_eq_none] at hd
  have hyields : Yields supply (instr slots x) fun supply' block =>
      StandsFor slots (Issued supply supply') x block := instr_standsFor htarget hset
  obtain ⟨block', supply'', hrun, hle, hstands⟩ := hyields
  cases hrun.symm.trans h
  exact ⟨hle, hstands⟩

theorem mapM_blocks {xs : List Instr} {blocks : List (List Instr)}
    (h : (xs.mapM (instr slots)).run supply = .ok (blocks, supply')) :
    supply.issued ≤ supply'.issued ∧ List.Forall₂ (fun x block => ∃ begun ended : Supply,
      supply.issued ≤ begun.issued ∧ ended.issued ≤ supply'.issued ∧
        StandsFor slots (Issued begun ended) x block) xs blocks := by
  induction xs generalizing supply blocks with
  | nil =>
    cases h
    exact ⟨Nat.le_refl _, .nil⟩
  | cons x xs ih =>
    rw [mapM_cons, StateT.run_bind] at h
    obtain ⟨⟨block, supply₁⟩, hx, h⟩ := bind_eq_ok.mp h
    rw [StateT.run_bind] at h
    obtain ⟨⟨rest, supply₂⟩, hrest, h⟩ := bind_eq_ok.mp h
    cases h
    obtain ⟨hle, hblock⟩ := standsFor_of_instr hx
    obtain ⟨hle', hblocks⟩ := ih hrest
    refine ⟨Nat.le_trans hle hle', .cons ⟨supply, supply₁, Nat.le_refl _, hle', hblock⟩ ?_⟩
    refine hblocks.imp ?_
    rintro y b ⟨begun, ended, hbegun, hended, hy⟩
    exact ⟨begun, ended, Nat.le_trans hle hbegun, hended, hy⟩

/-- Spilled code is made of a block for every instruction. -/
theorem exists_blocks {xs out : List Instr} (h : (code slots xs).run supply = .ok (out, supply')) :
    ∃ blocks, out = blocks.flatten ∧ supply.issued ≤ supply'.issued ∧
      List.Forall₂ (fun x block => ∃ begun ended : Supply, supply.issued ≤ begun.issued ∧
        ended.issued ≤ supply'.issued ∧ StandsFor slots (Issued begun ended) x block) xs blocks := by
  unfold code at h
  rw [StateT.run_bind] at h
  obtain ⟨⟨blocks, supply₁⟩, hblocks, h⟩ := bind_eq_ok.mp h
  cases h
  exact ⟨blocks, rfl, mapM_blocks hblocks⟩

end Spilling

/-! ## All on the stack -/

namespace Stack

variable {slots : Slots} {U : Reg → Prop} {base index through : MachineReg}

theorem place_cases (slots : Slots) (r : Reg) :
    (slots[r.name]? = none ∧ place slots r = .reg r) ∨
      ∃ k, slots[r.name]? = some k ∧ place slots r = .mem (.slot k) := by
  grind [place, Spilling.slot?, Spilling.slot?_eq_none, Spilling.slot?_eq_some]

theorem readReg_loads (r : Reg) :
    Loads slots (· = .machine through) [r] (readReg slots r (.machine through)).1 fun fs =>
      Carried slots fs r (readReg slots r (.machine through)).2 ∧
        (r ≠ .rip → (readReg slots r (.machine through)).2 ≠ .rip) := by
  unfold readReg
  split
  next h => exact .nil ⟨.kept (Spilling.slot?_eq_none.mp h), id⟩
  next m h =>
    obtain ⟨k, hk, rfl⟩ := Spilling.slot?_eq_some.mp h
    exact .single rfl hk ⟨.fetched hk mem_cons_self, fun _ => nofun⟩

/-- A base register is loaded in front of the rest of the address. -/
theorem address_base {r base index : Reg} (hrip : r ≠ .rip) (i : Option (Reg × Int64))
    (d : Const) : address slots ⟨some r, i, d⟩ base index =
      ((readReg slots r base).1 ++ (address slots ⟨none, i, d⟩ base index).1,
        { (address slots ⟨none, i, d⟩ base index).2 with
          base := some (readReg slots r base).2 }) := by
  cases r with
  | rip => exact absurd rfl hrip
  | _ => rfl

section

variable (hne : base ≠ index) (hbase : U (.machine base)) (hindex : U (.machine index))

include hne hbase hindex

theorem address_loads (m : Mem) :
    Loads slots U m.namedRegs (address slots m (.machine base) (.machine index)).1 fun fs =>
      CarriedMem slots fs m (address slots m (.machine base) (.machine index)).2 := by
  obtain ⟨b, i, disp⟩ := m
  -- The index alone, beside any base.
  have hi : Loads slots (· = .machine index) (i.map Prod.fst).toList
      (address slots ⟨none, i, disp⟩ (.machine base) (.machine index)).1 fun fs =>
        CarriedIndex slots fs i
          (address slots ⟨none, i, disp⟩ (.machine base) (.machine index)).2.index := by
    cases i with
    | none => exact .nil .none
    | some p => exact (readReg_loads p.1).map fun fs h => .reg h.1
  have hU : ∀ r : Reg, r = .machine index → U r := fun r hr => hr ▸ hindex
  cases b with
  | none => exact hi.imp hU fun fs h => ⟨.none, h, rfl⟩
  | some r =>
    by_cases hrip : r = .rip
    · subst hrip
      exact (hi.imp hU fun fs h => ⟨.rip, h, rfl⟩).widen (subset_append_right _ _)
    · rw [address_base hrip]
      refine (readReg_loads r).append hi (fun q hq => ?_) hU fun fs fs' h h' => ?_
      · subst hq
        exact ⟨hbase, fun h => hne (Reg.machine.inj h)⟩
      · exact ⟨.reg hrip (h.2 hrip) (h.1.mono (subset_append_left fs fs')),
          h'.mono (subset_append_right fs fs'), rfl⟩

theorem inPlace_loads (a : Operand) :
    Loads slots U a.namedRegs (inPlace slots a (.machine base) (.machine index)).1 fun fs =>
      PlacedAs inFrame slots fs a (inPlace slots a (.machine base) (.machine index)).2 := by
  cases a with
  | reg r => exact .nil (placedAs_slot? r)
  | mem m => exact (address_loads hne hbase hindex m).map fun fs h => .mem h
  | const c => exact .nil (.const c)
  | absent => exact .nil .absent

/-- An instruction with one operand in place. -/
theorem unary_standsFor {x : Instr} {a : Operand} {make : Operand → Instr}
    (hrs : a.namedRegs ⊆ x.namedRegs)
    (hmake : ∀ {fs b}, PlacedAs inFrame slots fs a b → Core inFrame slots U fs x (make b) [])
    (hone : ∀ b, (make b).words.length ≤ 1) :
    StandsFor slots U x (unary slots make a (.machine base) (.machine index)) :=
  Loads.standsFor ((inPlace_loads hne hbase hindex a).map fun _ h => hmake h) hrs
    fun _ => hone _

end

/-- What is loaded is read, unless it is a word of memory. -/
theorem loaded_loads {a : Operand} (ha : ∀ m, a ≠ .mem m) :
    Loads slots (· = .machine through) a.namedRegs (loaded slots a (.machine through)).1 (fun fs =>
      ReadAs inFrame slots fs a (loaded slots a (.machine through)).2) ∧
      (loaded slots a (.machine through)).2.words = [] := by
  cases a with
  | reg r => exact ⟨(readReg_loads r).map fun fs h => .reg h.1, rfl⟩
  | mem m => exact absurd rfl (ha m)
  | const c => exact ⟨.nil (.const c), rfl⟩
  | absent => exact ⟨.nil .absent, rfl⟩

/-- Fetches in front of what is written. -/
theorem into_standsFor {x : Instr} {rs : List Reg} {load : List Instr} {P : Fetches → Prop}
    {make : Reg → Instr} {d : Reg} (hthrough : U (.machine through))
    (hload : Loads slots U rs load P) (hrs : rs ⊆ x.namedRegs)
    (hmake : ∀ {fs e store}, WrittenAs inFrame slots U d e store → P fs →
      Core inFrame slots U fs x (make e) store)
    (hone : ∀ e, (make e).words.length ≤ 1) :
    StandsFor slots U x (load ++ into (place slots d) (.machine through) make) := by
  rcases place_cases slots d with ⟨hd, hplace⟩ | ⟨k, hk, hplace⟩
  · rw [hplace]
    exact Loads.standsFor (hload.map fun fs hP => hmake (.kept hd) hP) hrs
      fun _ => hone d
  · rw [hplace]
    exact Loads.standsFor (hload.map fun fs hP => hmake (.stored hk hthrough) hP) hrs
      fun _ => hone _

section

variable (h10 : U .r10) (h11 : U .r11)
variable {x : Instr}

include h11

/-- Work on a register, or on a copy of its slot. -/
theorem throughCopy_standsFor {rs : List Reg} {load : List Instr} {P : Fetches → Prop}
    {make : Reg → Instr} {d : Reg} {V : Reg → Prop} (hV : ∀ r, V r → U r ∧ r ≠ .r11)
    (hload : Loads slots V rs load P) (hrs : rs ++ [d] ⊆ x.namedRegs)
    (hmake : ∀ {fs fs' e store}, UpdatedAs inFrame slots fs' d e store → P fs → fs ⊆ fs' →
      Core inFrame slots U fs' x (make e) store)
    (hone : ∀ e, (make e).words.length ≤ 1) :
    StandsFor slots U x (load ++ throughCopy (place slots d) make) := by
  rcases place_cases slots d with ⟨hd, hplace⟩ | ⟨k, hk, hplace⟩
  · rw [hplace]
    exact Loads.standsFor (hload.imp (fun r hr => (hV r hr).1) fun fs hP =>
      hmake (.kept hd) hP (List.Subset.refl fs)) (append_subset.mp hrs).1 fun _ => hone d
  · rw [hplace]
    have hcopy : Loads slots (· = .r11) [d] [.mov (.reg .r11) (.mem (.slot k))] fun fs =>
        (Reg.r11, k) ∈ fs := .single rfl hk mem_cons_self
    have hcode : Loads slots U (rs ++ [d]) (load ++ [.mov (.reg .r11) (.mem (.slot k))]) fun fs =>
        Core inFrame slots U fs x (make .r11) [.mov (.mem (.slot k)) (.reg .r11)] := by
      refine hload.append hcopy hV (fun r hr => hr ▸ h11) fun fs fs' h h' => ?_
      exact hmake (.stored hk (mem_append_right fs h')) h (subset_append_left fs fs')
    have hblock := hcode.standsFor hrs fun _ => hone .r11
    rwa [append_assoc] at hblock

include h10

theorem move_standsFor {d : Reg} {a : Operand}
    (h9 : slots[d.name]? = none ∨ (∀ m, a ≠ .mem m) ∨ U .r9) :
    StandsFor slots U (.mov (.reg d) a) (move slots d a) := by
  have hrs : a.namedRegs ⊆ (Instr.mov (.reg d) a).namedRegs := subset_cons_self d _
  unfold move
  rcases place_cases slots d with ⟨hd, hplace⟩ | ⟨k, hk, hplace⟩
  · simp only [hplace]
    exact Loads.standsFor ((inPlace_loads (by decide) h10 h11 a).map fun _ h =>
      .mov (.reg hd) h.readAs) hrs fun _ => words_le _
  · have hplain : ∀ {b : Operand}, b.words = [] → ReadAs inFrame slots [] a b →
        StandsFor slots U (.mov (.reg d) a) [.mov (.mem (.slot k)) b] := by
      intro b hb hab
      refine Loads.standsFor (.nil (.mov (.slot hk) hab)) (nil_subset _) fun _ => ?_
      rw [Instr.words, hb]
      exact Nat.le_refl 1
    simp only [hplace]
    cases a with
    | const c => exact hplain rfl (.const c)
    | absent => exact hplain rfl .absent
    | reg r =>
      rcases place_cases slots r with ⟨hr, hr'⟩ | ⟨j, hj, hj'⟩
      · simp only [inPlace, hr']
        exact hplain rfl (.reg (.kept hr))
      · simp only [inPlace, hj']
        exact Loads.standsFor (.nil (.movReg (.stored hk h11) (.slot hj))) (nil_subset _)
          fun _ => Nat.le_refl 1
    | mem m =>
      have h9' : U .r9 := h9.elim (fun h => nomatch h.symm.trans hk)
        fun h => h.elim (fun h => absurd rfl (h m)) id
      have hload : Loads slots U m.namedRegs (inPlace slots (.mem m) .r9 .r10).1 fun fs =>
          PlacedAs inFrame slots fs (.mem m) (inPlace slots (.mem m) .r9 .r10).2 :=
        inPlace_loads (by decide) h9' h10 (.mem m)
      exact Loads.standsFor (hload.map fun _ h => .movReg (.stored hk h11) h.readAs)
        hrs fun _ => Nat.le_refl 1

theorem operate_standsFor (h9 : U .r9) (op : Arith) (d : Reg) (a : Operand) :
    StandsFor slots U (.arith op (.reg d) a) (operate slots op d a) := by
  have hrs : a.namedRegs ⊆ (Instr.arith op (.reg d) a).namedRegs := subset_cons_self d _
  have hload : Loads slots U a.namedRegs (inPlace slots a .r9 .r10).1 fun fs =>
      PlacedAs inFrame slots fs a (inPlace slots a .r9 .r10).2 :=
    inPlace_loads (by decide) h9 h10 a
  unfold operate
  rcases place_cases slots d with ⟨hd, hplace⟩ | ⟨k, hk, hplace⟩
  · simp only [hplace]
    exact Loads.standsFor (hload.map fun _ h => .arith (.reg hd) h.readAs) hrs
      fun _ => words_le _
  · simp only [hplace]
    cases hb : (inPlace slots a .r9 .r10).2 with
    | mem m =>
      obtain ⟨fs, hcode, hfs, hplaced⟩ := hload.widen hrs
      rw [hcode]
      rw [hb] at hplaced
      exact .relayed hfs hk h11 hplaced.readAs fun _ => nofun
    | reg r | const c | absent =>
      rw [hb] at hload
      exact Loads.standsFor (hload.map fun _ h => .arith (.slot hk) h.readAs) hrs
        fun _ => Nat.le_refl 1

omit h11 in
theorem apart_r11 (h9 : U .r9) : ∀ r, r = .r9 ∨ r = .r10 → U r ∧ r ≠ .r11 := by
  rintro r (rfl | rfl)
  · exact ⟨h9, by decide⟩
  · exact ⟨h10, by decide⟩

/-- Fetches for two operands, the second one no word of memory. -/
theorem pair_standsFor (h9 : U .r9) {l r : Operand} {make : Operand → Operand → Instr}
    (hrs : l.namedRegs ++ r.namedRegs ⊆ x.namedRegs) (hr : ∀ m, r ≠ .mem m)
    (hmake : ∀ {fs a b}, PlacedAs inFrame slots fs l a → ReadAs inFrame slots fs r b →
      Core inFrame slots U fs x (make a b) [])
    (hwords : ∀ a b, (make a b).words = a.words ++ b.words) :
    StandsFor slots U x ((inPlace slots l .r9 .r10).1 ++ (loaded slots r .r11).1 ++
      [make (inPlace slots l .r9 .r10).2 (loaded slots r .r11).2]) := by
  have hload : Loads slots (fun r => r = .r9 ∨ r = .r10) l.namedRegs
      (inPlace slots l .r9 .r10).1 fun fs =>
        PlacedAs inFrame slots fs l (inPlace slots l .r9 .r10).2 :=
    inPlace_loads (by decide) (.inl rfl) (.inr rfl) l
  obtain ⟨hread, hnone⟩ := @loaded_loads slots .r11 r hr
  refine Loads.standsFor (hload.append hread (apart_r11 h10 h9) (fun q hq => hq ▸ h11)
    fun fs fs' h h' => ?_) hrs fun _ => ?_
  · exact hmake (h.mono (subset_append_left fs fs')) (h'.mono (subset_append_right fs fs'))
  · rw [hwords, hnone, append_nil]
    exact words_le _

theorem compare_standsFor (h9 : U .r9) {l r : Operand} (hone : (Instr.cmp l r).words.length ≤ 1) :
    StandsFor slots U (.cmp l r) (compare slots l r) := by
  cases r with
  | mem m =>
    have hl : ∀ n, l ≠ .mem n := by
      rintro n rfl
      simp [Instr.words, Operand.words] at hone
    have hload : Loads slots (fun r => r = .r10 ∨ r = .r11) m.namedRegs
        (address slots m .r10 .r11).1 fun fs =>
          CarriedMem slots fs m (address slots m .r10 .r11).2 :=
      address_loads (by decide) (.inl rfl) (.inr rfl) m
    obtain ⟨hread, hwords⟩ := @loaded_loads slots .r9 l hl
    refine Loads.standsFor (hread.append hload (fun q hq => ?_) (fun q hq => ?_)
      fun fs fs' h h' => ?_) (List.Subset.refl _) fun _ => ?_
    · subst hq
      exact ⟨h9, by decide⟩
    · exact hq.elim (fun h => h ▸ h10) fun h => h ▸ h11
    · exact .cmp (h.mono (subset_append_left fs fs'))
        (.mem (h'.mono (subset_append_right fs fs')))
    · show ((loaded slots l .r9).2.words ++ [(address slots m .r10 .r11).2]).length ≤ 1
      rw [hwords]
      exact Nat.le_refl 1
  | reg q | const c | absent =>
    refine pair_standsFor h10 h11 h9 (List.Subset.refl _) (fun _ h => ?_)
      (fun ha hb => .cmp ha.readAs hb) fun _ _ => rfl
    cases h

/-- Whether an instruction needs `r9` to go through: all but moves to registers that are not
on the stack, and moves of anything but a word of memory. -/
def needsR9 (slots : Slots) : Instr → Prop
  | .mov (.reg d) a => slots[d.name]? ≠ none ∧ ∃ m, a = .mem m
  | _ => True

/-- The block of an instruction, through registers that it may go through. -/
theorem instr_standsFor (h9 : needsR9 slots x → U .r9) (htarget : Spilling.hasTarget x = true)
    (hone : x.words.length ≤ 1) :
    ∃ block, instr slots x = .ok block ∧ StandsFor slots U x block := by
  have hnotMem : ∀ {m : Mem} {a : Operand}, ((Operand.mem m).words ++ a.words).length ≤ 1 →
      ∀ n, a ≠ .mem n := by
    rintro m _ hone n rfl
    exact absurd hone (by simp [Operand.words])
  have hnil : Loads slots U [] [] fun _ => True := .nil trivial
  cases x with
  | movAbs d v =>
    exact ⟨_, rfl, into_standsFor (h9 trivial) hnil (nil_subset _) (fun hd _ => .movAbs hd)
      fun _ => Nat.zero_le 1⟩
  | mov d a =>
    cases d with
    | reg d =>
      refine ⟨_, rfl, move_standsFor h10 h11 ?_⟩
      by_cases hd : slots[d.name]? = none
      · exact .inl hd
      · by_cases ha : ∃ m, a = .mem m
        · exact .inr (.inr (h9 ⟨hd, ha⟩))
        · exact .inr (.inl fun m hm => ha ⟨m, hm⟩)
    | mem m =>
      exact ⟨_, rfl, pair_standsFor h10 h11 (h9 trivial) (List.Subset.refl _) (hnotMem hone)
        (fun hm ha => .mov hm ha) fun _ _ => rfl⟩
    | const c | absent => cases htarget
  | lea d m =>
    exact ⟨_, rfl, into_standsFor h11 (address_loads (by decide) (h9 trivial) h10 m)
      (subset_cons_self d _) (fun hd h => .lea hd h) fun _ => Nat.zero_le 1⟩
  | cmp l r => exact ⟨_, rfl, compare_standsFor h10 h11 (h9 trivial) hone⟩
  | set c d =>
    exact ⟨_, rfl, into_standsFor (h9 trivial) hnil (nil_subset _) (fun hd _ => .set hd)
      fun _ => Nat.zero_le 1⟩
  | call a =>
    exact ⟨_, rfl, unary_standsFor (by decide) (h9 trivial) h10 (List.Subset.refl _)
      (fun h => .call h.readAs) fun b => words_le b⟩
  | arith op d a =>
    cases d with
    | reg d => exact ⟨_, rfl, operate_standsFor h10 h11 (h9 trivial) op d a⟩
    | mem m =>
      exact ⟨_, rfl, pair_standsFor h10 h11 (h9 trivial) (List.Subset.refl _) (hnotMem hone)
        (fun hm ha => .arith hm ha) fun _ _ => rfl⟩
    | const c | absent => cases htarget
  | imul d a =>
    have hload : Loads slots (fun r => r = .r9 ∨ r = .r10) a.namedRegs
        (inPlace slots a .r9 .r10).1 fun fs =>
          PlacedAs inFrame slots fs a (inPlace slots a .r9 .r10).2 :=
      inPlace_loads (by decide) (.inl rfl) (.inr rfl) a
    exact ⟨_, rfl, throughCopy_standsFor h11 (apart_r11 h10 (h9 trivial)) hload
      (by simp [Instr.namedRegs]) (fun hd h hsub => .imul hd (h.readAs.mono hsub))
      fun _ => words_le _⟩
  | imul3 d a k =>
    exact ⟨_, rfl, into_standsFor h11 (inPlace_loads (by decide) (h9 trivial) h10 a)
      (subset_cons_self d _) (fun hd h => .imul3 hd h.readAs) fun _ => words_le _⟩
  | idiv a =>
    exact ⟨_, rfl, unary_standsFor (by decide) h10 h11 (List.Subset.refl _)
      (fun h => .idiv h.readAs) fun b => words_le b⟩
  | neg a =>
    exact ⟨_, rfl, unary_standsFor (by decide) (h9 trivial) h10 (List.Subset.refl _)
      (fun h => .neg h) fun b => words_le b⟩
  | shl a k =>
    exact ⟨_, rfl, unary_standsFor (by decide) (h9 trivial) h10 (List.Subset.refl _)
      (fun h => .shl h) fun b => words_le b⟩
  | push a =>
    exact ⟨_, rfl, unary_standsFor (by decide) (h9 trivial) h10 (List.Subset.refl _)
      (fun h => .push h.readAs) fun b => words_le b⟩
  | jump c l | ret | cqo | popRbp | label l | comment text | absent => exact ⟨_, rfl, .bare rfl⟩

end

end Stack

end X64Backend.Alloc
