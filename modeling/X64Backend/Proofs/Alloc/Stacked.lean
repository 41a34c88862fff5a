import X64Backend.Proofs.Alloc.Spilled

/-! # Instructions with all registers on the stack

The plain way to allocate puts a block in the place of every instruction, too. The registers
that the blocks go through are of the machine.
-/

namespace X64Backend.Alloc

open Asm Machine Dataflow List

/-! ## Only what is written -/

section

variable {slots : Slots} {U V : Reg → Prop} {fs : Fetches} {x y : Instr} {store block : List Instr}

/-- Of the registers that code goes through only those matter that it writes. -/
theorem Core.narrow (h : Core inFrame slots U fs x y store) (hV : ∀ q, U q → q ∈ defs y → V q) :
    Core inFrame slots V fs x y store := by
  have hwritten : ∀ {d e : Reg} {store}, WrittenAs inFrame slots U d e store → e ∈ defs y →
      WrittenAs inFrame slots V d e store := by
    intro d e store h he
    cases h with
    | kept h => exact .kept h
    | stored h hq => exact .stored h (hV e hq he)
  cases h with
  | movAbs h | movReg h _ | lea h _ | set h | imul3 h _ =>
    have h := hwritten h (by simp [Operand.target])
    constructor <;> assumption
  | _ => constructor <;> assumption

theorem Block.narrow (h : Block inFrame slots U x block) :
    Block inFrame slots (fun r => U r ∧ ∃ y ∈ block, r ∈ defs y) x block := by
  have hfetch : ∀ {rs : List Reg} {fs : Fetches} {rest : List Instr}, Fetching slots U rs fs →
      Fetching slots (fun r => U r ∧ ∃ y ∈ fs.code inFrame ++ rest, r ∈ defs y) rs fs := by
    intro rs fs rest hfs
    refine ⟨fun p hp => ⟨hfs.scratch p hp, .mov (.reg p.1) (.mem (.slot p.2)), ?_, ?_⟩,
      hfs.slot, hfs.nodup⟩
    · exact mem_append_left rest (mem_map_of_mem hp)
    · exact mem_cons_self
  cases h with
  | around hfs hcore =>
    refine .around (hfetch hfs) (hcore.narrow fun q hq hy => ⟨hq, _, ?_, hy⟩)
    exact mem_append_right _ mem_cons_self
  | relayed hfs hd hq ha hb =>
    refine .relayed (hfetch hfs) hd ⟨hq, _, mem_append_right _ mem_cons_self, ?_⟩ ha hb
    exact mem_cons_self

end

namespace Stack

/-- The registers that code on the stack goes through. -/
def scratch : List Reg := [.r9, .r10, .r11]

/-- What an instruction must be like for its block on the stack to do the same: its abstract
registers have slots, and it leaves the registers to go through alone. A move may read or write
`r9`. -/
structure Fits (slots : Slots) (x : Instr) : Prop where
  assigned : Assigned slots
  named : ∀ r ∈ x.namedRegs, r.Proper
  covered : ∀ n, .abstract n ∈ x.namedRegs → slots[n]? ≠ none
  call : isCall x = false
  ret : x ≠ .ret
  words : x.words.length ≤ 1
  target : Spilling.hasTarget x = true
  rbp : .rbp ∉ defs x
  r9 : .r9 ∈ x.namedRegs → ∃ d a, x = .mov (.reg d) a ∧ ∀ m, a = .mem m → .r9 ∉ m.namedRegs
  r10 : .r10 ∉ x.namedRegs
  r11 : .r11 ∉ x.namedRegs

/-- The registers below an address. -/
def Fits.frame {slots : Slots} {x : Instr} (h : Fits slots x) (base : Int64) : Frame :=
  ⟨slots, base, h.assigned⟩

/-- Registers that are not abstract. -/
def Plain (r : Reg) : Prop := ∀ n, r ≠ .abstract n

/-- What is the same behind an instruction and its block: all registers that are not abstract,
but those to go through that the block writes and the instruction does not. -/
def Kept (x : Instr) (block : List Instr) (r : Reg) : Prop :=
  Plain r ∧ (r ∈ scratch → (∃ y ∈ block, r ∈ defs y) → r ∈ defs x)

/-- Both go on behind what was executed, or both at a label. -/
def Passes (img : Image) (x : Instr) (block : List Instr) (s t s' t' : State) : Prop :=
  s'.ip = s.ip + 1 ∧ t'.ip = t.ip + block.length ∨
    ∃ c l j, x = .jump c l ∧ img.labels[l]? = some j ∧ s'.ip = (j : Nat) ∧ t'.ip = (j : Nat)

section

variable {slots : Slots} {x : Instr}

/-- The registers that an instruction may go through. -/
def Spare (x : Instr) (r : Reg) : Prop := r ∈ scratch ∧ r ∉ uses x ∧ r ∉ defs x

theorem Fits.spare_of_notMem (h : Fits slots x) {r : Reg} (hr : r ∈ scratch)
    (hnamed : r ∉ x.namedRegs) : Spare x r := by
  have hnone : ¬ (r ∈ uses x ∨ r ∈ defs x) := by
    grind [named_or_implicit_of_mem, h.call, scratch]
  exact ⟨hr, fun h => hnone (.inl h), fun h => hnone (.inr h)⟩

theorem Fits.spare_r9 (h : Fits slots x) (hneeds : needsR9 slots x) : Spare x .r9 := by
  by_cases hnamed : .r9 ∈ x.namedRegs
  · obtain ⟨d, a, rfl, ha⟩ := h.r9 hnamed
    obtain ⟨hd, m, rfl⟩ := hneeds
    have hm := ha m rfl
    have hne : Reg.r9 ≠ d := by
      rintro rfl
      exact hd ((h.frame 0).free_machine .r9)
    refine ⟨mem_cons_self, fun huse => ?_, fun hdef => ?_⟩
    · rw [uses_mov] at huse
      exact hm (mem_named_of_regs (a := .mem m) (by simpa [Operand.indirect] using huse))
    · exact hne (by simpa [Operand.target] using hdef)
  · exact h.spare_of_notMem mem_cons_self hnamed

theorem Fits.block (h : Fits slots x) :
    ∃ block, instr slots x = .ok block ∧ Block inFrame slots (Spare x) x block := by
  obtain ⟨block, hblock, hstands⟩ := instr_standsFor (h.spare_of_notMem (by decide) h.r10)
    (h.spare_of_notMem (by decide) h.r11) h.spare_r9 h.target h.words
  exact ⟨block, hblock, hstands.block⟩

/-- Registers of the machine, and those with slots, can be read. -/
theorem Fits.trusts (h : Fits slots x) (base : Int64) {r : Reg} (hr : r ∈ uses x) :
    (h.frame base).keeping.Trusts Plain r := by
  rcases named_or_implicit_of_mem h.call (.inl hr) with hnamed | himplicit
  · refine ⟨h.named r hnamed, ?_⟩
    rintro hfree n rfl
    exact h.covered n hnamed hfree
  · have hmachine : ∃ q, r = .machine q := by
      rcases himplicit with rfl | rfl | rfl | rfl <;> exact ⟨_, rfl⟩
    obtain ⟨q, rfl⟩ := hmachine
    exact ⟨proper_machine q, fun _ _ => nofun⟩

theorem Fits.write (h : Fits slots x) {r : Reg} (hr : r ∈ defs x) : r.Proper ∧ r ≠ .rbp := by
  grind [h.rbp, named_or_implicit_of_mem, h.call, h.named, proper_machine]

/-- A jump does the same in states that compare the same. -/
theorem related_jump {F : Frame} {img : Image} {s t : State} (hag : F.Holds Plain s t) (c : Cond)
    (l : Name) : Outcome.Related (fun s' t' => F.Holds Plain s' t' ∧
      Passes img (.jump c l) [.jump c l] s t s' t') (SameEnd F.Word fun _ => False)
        (img.exec s.advance (.jump c l)) (img.execAll [.jump c l] t) := by
  have hcond : c.holds t.advance.left t.advance.right = c.holds s.advance.left s.advance.right := by
    simp only [State.left_advance, State.right_advance, hag.left, hag.right]
  rw [Image.execAll_singleton]
  simp only [Image.exec, Image.goto, hcond]
  cases c.holds s.advance.left s.advance.right with
  | error defect => exact .error ⟨rfl, hag.advance.world⟩
  | ok taken =>
    cases taken with
    | false => exact .ok ⟨hag.advance, .inl ⟨rfl, rfl⟩⟩
    | true =>
      cases hl : img.labels[l]? with
      | none => exact .error ⟨rfl, hag.advance.world⟩
      | some j => exact .ok ⟨hag.advance.moved j j, .inr ⟨c, l, j, rfl, hl, rfl, rfl⟩⟩

end

/-- The block of an instruction on the stack, executed where the slots hold the abstract
registers, does what the instruction does, and fails where it fails. -/
theorem instr_simulates {slots : Slots} {x : Instr} (h : Fits slots x) :
    ∃ block, instr slots x = .ok block ∧ ∀ (base : Int64) (img : Image) (s t : State),
      (h.frame base).Holds Plain s t → Apart (h.frame base).Word img s x →
      Outcome.Related (fun s' t' => (h.frame base).Holds (Kept x block) s' t' ∧
        Passes img x block s t s' t') (SameEnd (h.frame base).Word fun _ => False)
        (img.exec s.advance x) (img.execAll block t) := by
  obtain ⟨block, hblock, hstands⟩ := h.block
  refine ⟨block, hblock, fun base img s t hag hapart => ?_⟩
  by_cases hfalls : falls x = true
  · have hsuits : (h.frame base).keeping.Suits (fun r => Spare x r ∧ ∃ y ∈ block, r ∈ defs y) Plain
        (Kept x block) img img s.advance x := by
      refine ⟨fun r => h.trusts base, fun r => h.write, fun _ _ => rfl,
        ⟨hapart.words, hapart.stack⟩, fun r hr => ⟨?_, fun _ => hr.1⟩⟩
      rintro ⟨hspare, hwritten⟩
      exact hspare.2.2 (hr.2 hspare.1 hwritten)
    have hrelated : Outcome.Related ((h.frame base).Holds (Kept x block))
        (SameEnd (h.frame base).Word fun _ => False) (img.exec s.advance x) (img.execAll block t) := by
      refine Frame.related_block hstands.narrow hfalls ?_ hag (fun r hr => hr.1.2.1) hsuits
      rintro r ⟨⟨hscratch, _⟩, _⟩
      simp only [scratch, List.mem_cons, List.not_mem_nil, or_false] at hscratch
      rcases hscratch with rfl | rfl | rfl <;> exact ⟨by decide, (h.frame base).free_machine _⟩
    refine hrelated.refine (fun hs' ht' hag' => ⟨hag', .inl ⟨?_, ?_⟩⟩) fun h => h
    · rw [ip_of_exec hfalls hs', State.ip_advance]
    · exact Image.ip_execAll (Keeping.falls_of_block hstands hfalls) ht'
  · cases x with
    | jump c l =>
      cases hblock
      refine (related_jump hag c l).refine (fun _ _ hst => ⟨hst.1.mono fun r hr => hr.1, hst.2⟩)
        fun h => h
    | call a => exact nomatch h.call
    | ret => exact absurd rfl h.ret
    | _ => exact absurd rfl hfalls

/-- Adds to a register the word that it points to. -/
def follow : Instr := .arith .add (.reg (.abstract "p")) (.mem (.offset (.abstract "p") 0))

theorem follow_fits : Fits chasingSlots follow where
  assigned := chasing_fits.assigned
  named := by decide
  covered n hn := by
    have hregs : ∀ r ∈ follow.namedRegs, r = .abstract "p" := by decide
    rw [Reg.abstract.inj (hregs _ hn), chasingSlots_eq_some.mpr ⟨rfl, rfl⟩]
    nofun
  call := rfl
  ret := nofun
  words := by decide
  target := rfl
  rbp := by decide
  r9 h := absurd h (by decide)
  r10 := by decide
  r11 := by decide

theorem follow_simulated : ∃ block, instr chasingSlots follow = .ok block ∧
    Outcome.Related (fun s' t' => (follow_fits.frame 8192).Holds (Kept follow block) s' t' ∧
      Passes (imageOf ∅ []) follow block ((frameStart 8192).set (.abstract "p") 4096)
        { frameStart 8192 with memory := Memory.empty.write 8184 4096 } s' t')
      (SameEnd (follow_fits.frame 8192).Word fun _ => False)
      ((imageOf ∅ []).exec ((frameStart 8192).set (.abstract "p") 4096).advance follow)
      ((imageOf ∅ []).execAll block
        { frameStart 8192 with memory := Memory.empty.write 8184 4096 }) := by
  obtain ⟨block, hblock, hsim⟩ := instr_simulates follow_fits
  refine ⟨block, hblock, hsim 8192 _ _ _ ?_ ?_⟩
  · have hcheck : State.checkAddress (slotAddress 8192 1) = .ok () := by decide
    refine ⟨fun {n k} hn => ?_, fun {r} hr _ => ?_, ⟨fun a ha => ?_, rfl, rfl⟩, rfl, rfl, rfl⟩
    · obtain ⟨rfl, rfl⟩ := chasingSlots_eq_some.mp hn
      exact load_eq_ok.mpr ⟨hcheck, by rw [State.get_set_self]; rfl⟩
    · rw [State.get_set_of_ne _ _ fun h => hr _ h.symm]
      rfl
    · have hne : (8184 : Int64) ≠ a := fun h =>
        ha ⟨"p", 1, chasingSlots_eq_some.mpr ⟨rfl, rfl⟩, by rw [← h]; rfl⟩
      rw [Memory.read_write, if_neg hne]
      rfl
  · refine ⟨fun m hm a ha => ?_, nofun⟩
    obtain rfl : m = .offset (.abstract "p") 0 := List.mem_singleton.mp hm
    have haddress : (imageOf ∅ []).address ((frameStart 8192).set (.abstract "p") 4096)
        (.offset (.abstract "p") 0) = .ok 4096 := by
      rw [address_eq]
      show Except.ok (((frameStart 8192).set (.abstract "p") 4096).get (.abstract "p") + 0 + 0) = _
      rw [State.get_set_self]
      rfl
    obtain rfl := Except.ok.inj (haddress.symm.trans ha)
    rintro ⟨n, k, hn, hword⟩
    obtain ⟨rfl, rfl⟩ := chasingSlots_eq_some.mp hn
    exact absurd hword (by decide)

end Stack

end X64Backend.Alloc
