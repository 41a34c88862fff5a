import X64Backend.Proofs.Alloc.Finishing
import X64Backend.Proofs.Alloc.Slots

/-! # Allocation goes through

Between two rounds code has a shape in which registers that have slots are not named any more,
and slots that keep callee-saved registers are only moved from and to. Every round keeps that,
so spilling never fails and the last round can finish the code.
-/

namespace X64Backend.Alloc

open Asm Dataflow List

/-! ## Registers to work on -/

/-- A register that can be coloured: none of the pointers, and named like no other. -/
structure Workable (r : Reg) : Prop where
  proper : r.Proper
  rip : r ≠ .rip
  rsp : r ≠ .rsp
  rbp : r ≠ .rbp

theorem proper_machine (q : MachineReg) : (Reg.machine q).Proper := Reg.ofName_machine q

theorem proper_rip : Reg.rip.Proper := Reg.proper_ofName "rip"

theorem Workable.name_ne {r q : Reg} (h : Workable r) (hq : q.Proper) (hne : r ≠ q) :
    r.name ≠ q.name := fun hname => hne ((h.proper.name_inj hq).mp hname)

theorem workable_abstract {n : Name} (h : (Reg.abstract n).Proper) : Workable (.abstract n) where
  proper := h
  rip := fun h => nomatch h
  rsp := fun h => nomatch h
  rbp := fun h => nomatch h

theorem workable_machine {q : MachineReg} (hsp : q ≠ .rsp) (hbp : q ≠ .rbp) :
    Workable (.machine q) where
  proper := proper_machine q
  rip := fun h => nomatch h
  rsp := fun h => hsp (Reg.machine.inj h)
  rbp := fun h => hbp (Reg.machine.inj h)

theorem Workable.mem_palette {q : MachineReg} (h : Workable (.machine q)) : q ∈ palette := by
  have hrsp := h.rsp
  have hrbp := h.rbp
  cases q <;> first | decide | exact absurd rfl hrsp | exact absurd rfl hrbp

theorem workable_issued (k : Nat) : Workable (.issued k) := workable_abstract (Reg.ofName_issued k)

theorem workable_saved (q : MachineReg) : Workable (.saved (.machine q)) :=
  workable_abstract (Reg.ofName_saved (.machine q))

/-- The name of a register that keeps a machine register. -/
def SavedName (n : Name) : Prop := ∃ q : MachineReg, n = (Reg.saved (.machine q)).name

theorem not_savedName_issued (k : Nat) : ¬ SavedName (Reg.issued k).name := by
  rintro ⟨q, h⟩
  -- The marks in front differ in their second byte.
  have hbyte : Reg.issuedMark[1]? = Reg.savedMark[1]? := by
    have hbytes := congrArg (fun n : Name => n[1]?) h
    simp only [Reg.issued, Reg.saved, Reg.name] at hbytes
    rwa [getElem?_append_left (by decide), getElem?_append_left (by decide)] at hbytes
  revert hbyte
  decide

/-- A register that can get a slot: one to work on that is not the machine's and was issued
before, if it was issued. -/
def Spillable (issued : Nat) (r : Reg) : Prop :=
  Workable r ∧ (∀ q, r ≠ .machine q) ∧ ∀ j, r = .issued j → j < issued

namespace Extends

variable {slots slots' new : Slots} {rs : List Reg} {issued issued' : Nat}
variable (hext : Extends slots rs slots' new) (hrs : ∀ r ∈ rs, Spillable issued r)
include hext hrs

/-- Machine registers get no slots. -/
theorem new_machine (q : MachineReg) : new[(Reg.machine q).name]? = none := by
  rw [hext.new_iff]
  exact fun r hr => (hrs r hr).1.name_ne (proper_machine q) ((hrs r hr).2.1 q)

variable (hslots : ∀ (n : Name) (k : Nat), slots[n]? = some k →
  ∃ r : Reg, r.name = n ∧ Spillable issued r)
include hslots

/-- What has a slot afterwards could get one. -/
theorem spillable (hle : issued ≤ issued') (n : Name) (k : Nat) (hn : slots'[n]? = some k) :
    ∃ r : Reg, r.name = n ∧ Spillable issued' r := by
  have hlater : ∀ {r}, Spillable issued r → Spillable issued' r := fun hr =>
    ⟨hr.1, hr.2.1, fun j hj => Nat.lt_of_lt_of_le (hr.2.2 j hj) hle⟩
  cases hnew : new[n]? with
  | none =>
    grind [hext.of_old]
  | some k' =>
    have hsome : ¬ ∀ r ∈ rs, r.name ≠ n := by
      rw [← hext.new_iff, hnew]
      exact fun h => nomatch h
    push Not at hsome
    obtain ⟨r, hr, hname⟩ := hsome
    exact ⟨r, hname, hlater (hrs r hr)⟩

/-- What was issued later has no slot. -/
theorem issued_free {j : Nat} (hj : issued ≤ j) : slots'[(Reg.issued j).name]? = none := by
  cases hslot : slots'[(Reg.issued j).name]? with
  | none => rfl
  | some k =>
    obtain ⟨r, hname, hr, _, hlt⟩ := hext.spillable hrs hslots (Nat.le_refl _) _ k hslot
    have := hlt j ((hr.proper.name_inj (Reg.ofName_issued j)).mp hname)
    omega

end Extends

/-! ## Between the rounds -/

/-- The shape of code between rounds: its registers can be coloured and have no slots, the
frame has the slots. Only names of one kind take part. -/
def between (B : Shape) (slots : Slots) (issued : Nat) (p : Name → Prop) : Shape where
  reg r := Workable r ∧ (∀ j, r = .issued j → j < issued) ∧ slots[r.name]? = none ∧ p r.name
  frame d := B.frame d ∨ ∃ (n : Name) (k : Nat), slots[n]? = some k ∧ p n ∧ d = -8 * Int64.ofInt k
  symbol := B.symbol
  stack := B.stack

/-- Code between rounds. Names that keep machine registers take part in moves only, slots are
numbered without gaps, and what has a slot was in the code once. -/
structure Between (B : Shape) (slots : Slots) (issued : Nat) (code : List Instr) : Prop where
  code {x : Instr} (h : x ∈ code) : (between B slots issued (¬ SavedName ·)).Allows x ∨
    (between B slots issued fun _ => True).Allows x ∧ Spilling.isMove x = true
  dense : Dense slots
  names {n : Name} {k : Nat} (h : slots[n]? = some k) : ∃ r : Reg, r.name = n ∧ Workable r ∧
    (∀ q, r ≠ .machine q) ∧ ∀ j, r = .issued j → j < issued

section

variable {B : Shape} {slots slots' new : Slots} {issued issued' : Nat} {p : Name → Prop}
  {code : List Instr} {rs : List Reg}

theorem between_le {p' : Name → Prop} (hp : ∀ n, p n → p' n) (hle : issued ≤ issued') :
    (between B slots issued p).Le (between B slots issued' p') where
  reg h := ⟨h.1, fun j hj => Nat.lt_of_lt_of_le (h.2.1 j hj) hle, h.2.2.1, hp _ h.2.2.2⟩
  frame h := h.imp_right fun ⟨n, k, hn, hpn, hd⟩ => ⟨n, k, hn, hp n hpn, hd⟩
  symbol h := h
  stack h := h

theorem Between.shape (h : Between B slots issued code) :
    (between B slots issued fun _ => True).Code code := by
  intro x hx
  rcases h.code hx with hx | ⟨hx, _⟩
  · exact hx.mono (between_le (fun _ _ => trivial) (Nat.le_refl _))
  · exact hx

theorem not_reg_rip : ¬ (between B slots issued p).reg .rip := fun h => h.1.rip rfl

/-- Registers that can get slots: the code's, but none of the machine's. -/
def CanSpill (B : Shape) (slots : Slots) (issued : Nat) (rs : List Reg) : Prop :=
  ∀ r ∈ rs, (between B slots issued fun _ => True).reg r ∧ ∀ q, r ≠ .machine q

theorem CanSpill.spillable (h : CanSpill B slots issued rs) : ∀ r ∈ rs, Spillable issued r :=
  fun r hr => ⟨(h r hr).1.1, (h r hr).2, (h r hr).1.2.1⟩

theorem CanSpill.keepsPointers (h : CanSpill B slots issued rs) (hext : Extends slots rs slots' new) :
    KeepsPointers (between B slots issued p) new := by
  refine ⟨not_reg_rip, hext.new_iff.mpr ?_, hext.new_machine h.spillable⟩
  exact fun r hr => (h r hr).1.1.name_ne proper_rip (h r hr).1.1.rip

theorem Between.spilledTo_le (h : Between B slots issued code) (hrs : CanSpill B slots issued rs)
    (hext : Extends slots rs slots' new) (hp : ∀ j, p (Reg.issued j).name) (hle : issued ≤ issued') :
    (spilledTo (between B slots issued p) new issued issued').Le (between B slots' issued' p) where
  reg := by
    rintro r (⟨hr, hnew⟩ | ⟨j, ⟨hj, hlt⟩, rfl⟩)
    · refine ⟨hr.1, fun j hj => Nat.lt_of_lt_of_le (hr.2.1 j hj) hle, ?_, hr.2.2.2⟩
      rw [hext.of_old hnew]
      exact hr.2.2.1
    · refine ⟨workable_issued j, ?_, hext.issued_free hrs.spillable (fun _ _ => h.names) hj, hp j⟩
      intro i hi
      rwa [← Reg.issued_inj.mp hi]
  frame := by
    rintro d ((hd | ⟨n, k, hn, hpn, hd⟩) | ⟨r, k, hr, hk, hd⟩)
    · exact .inl hd
    · refine .inr ⟨n, k, ?_, hpn, hd⟩
      have hnew : new[n]? = none := by
        rw [hext.new_iff]
        rintro r hr rfl
        rw [(hrs r hr).1.2.2.1] at hn
        cases hn
      rw [hext.of_old hnew, hn]
    · exact .inr ⟨r.name, k, hext.of_new hk, hr.2.2.2, hd⟩
  symbol h := h
  stack h := h

/-- Spilling goes through, and leaves code that can go into the next round. -/
theorem Between.spill (h : Between B slots issued code) (hrs : CanSpill B slots issued rs)
    (hnodup : (rs.map Reg.name).Nodup) :
    ∃ code' supply, (Spilling.code (addSlots slots rs).2 code).run ⟨issued⟩ = .ok (code', supply) ∧
      Between B (addSlots slots rs).1 supply.issued code' := by
  have hext := addSlots_extends h.dense hnodup fun r hr => (hrs r hr).1.2.2.1
  generalize (addSlots slots rs).1 = slots' at hext
  generalize (addSlots slots rs).2 = new at hext
  have hyields := Spilling.code_yields ⟨issued⟩ new code
    (P := fun k y => (between B slots' k (¬ SavedName ·)).Allows y ∨
      (between B slots' k fun _ => True).Allows y ∧ Spilling.isMove y = true) ?_ ?_
  · obtain ⟨code', supply, hrun, hle, hcode⟩ := hyields
    exact ⟨code', supply, hrun, hcode _, hext.dense,
      hext.spillable hrs.spillable (fun _ _ => h.names) hle _ _⟩
  · rintro k k' x hle (hx | ⟨hx, hmove⟩)
    · exact .inl (hx.mono (between_le (fun _ => id) hle))
    · exact .inr ⟨hx.mono (between_le (fun _ => id) hle), hmove⟩
  · intro x hx begun hle
    have hpointers {p : Name → Prop} := hrs.keepsPointers (p := p) hext
    rcases h.code hx with hx | ⟨hx, hmove⟩
    · apply (Spilling.instr_standsFor_of_allows begun hpointers hx).imp
      intro supply' out hle' hout y hy
      exact .inl ((hout.shape_spilledTo hpointers hx hle y hy).mono
        (h.spilledTo_le hrs hext not_savedName_issued (Nat.le_trans hle hle')))
    · apply (Spilling.instr_standsFor_of_allows begun hpointers hx).imp
      intro supply' out hle' hout y hy
      refine .inr ⟨(hout.shape_spilledTo hpointers hx hle y hy).mono
        (h.spilledTo_le hrs hext (fun _ => trivial) (Nat.le_trans hle hle')), ?_⟩
      cases x with
      | mov d s =>
        have haround : Around new (.mov d s) out :=
          .of_block hout.block fun _ => isScratch_of_issued
        exact Spilling.isMove_of_around haround y hy
      | _ => cases hmove

end

/-! ## The last round -/

/-- The shape of finished code: its registers are of the palette, and the frame has slots up to
a number. -/
def finished (B : Shape) (slots : Nat) : Shape where
  reg r := ∃ q ∈ palette, r = .machine q
  frame d := B.frame d ∨ ∃ k : Nat, 0 < k ∧ k ≤ slots ∧ d = -8 * Int64.ofInt k
  symbol := B.symbol
  stack := B.stack

/-- The word at a distance from the frame pointer. -/
abbrev frameWord (d : Int64) : Mem := ⟨some .rbp, none, .imm d⟩

/-- The shape with a condition on its words in the frame. -/
def framing (S : Shape) (q : Mem → Prop) : Shape :=
  { S with frame := fun d => S.frame d ∧ q (frameWord d) }

section

variable {S : Shape} {q : Mem → Prop}

theorem Word.framing {m : Mem} (h : S.Word m) (hq : q m) : (framing S q).Word m := by
  cases h with
  | symbol h => exact .symbol h
  | frame h => exact .frame ⟨h, hq⟩
  | sum hbase hindex hd => exact .sum hbase hindex hd

theorem Value.framing {a : Operand} (h : S.Value a) : (framing S q).Value a := by
  cases h with
  | imm h => exact .imm h
  | reg h => exact .reg h

theorem Pair.framing {d s : Operand} (h : S.Pair d s) (hd : ∀ m, d = .mem m → q m)
    (hs : ∀ m, s = .mem m → q m) : (framing S q).Pair d s := by
  cases h with
  | reg hr hs' =>
    cases hs' with
    | value hv => exact .reg hr (.value (Value.framing hv))
    | mem hm => exact .reg hr (.mem (Word.framing hm (hs _ rfl)))
  | mem hm hv => exact .mem (Word.framing hm (hd _ rfl)) (Value.framing hv)

end

section

variable {B : Shape} {slots : Slots} {issued : Nat} {code : List Instr} {f : Finish}
variable {k : Nat} {x : Instr}

/-- A word that is not the slot of an unused register. -/
def Finish.Keeps (f : Finish) (m : Mem) : Prop := ∀ k ∈ f.dropped, slotNumber? m ≠ some (k : Int)

theorem isSlot_of_dense (h : Dense slots) (hsize : slots.size < 2 ^ 60) {n : Name}
    (hk : slots[n]? = some k) : IsSlot k :=
  ⟨h.pos hk, Nat.lt_of_le_of_lt (h.le hk) hsize⟩

theorem slotNumber?_frameWord_of_nonneg {d : Int64} (h : ¬ d < 0) :
    slotNumber? (frameWord d) = none := by
  simp [slotNumber?, h]

/-- Where a register that keeps an unused one takes no part, all slots stay. -/
theorem between_le_framing (hB : ∀ d, B.frame d → ¬ d < 0) (hdense : Dense slots)
    (hsize : slots.size < 2 ^ 60) (hslots : f.slots = slots) :
    (between B slots issued (¬ SavedName ·)).Le
      (framing (between B slots issued fun _ => True) f.Keeps) where
  reg h := ⟨h.1, h.2.1, h.2.2.1, trivial⟩
  frame := by
    rintro d (hd | ⟨n, k, hn, hp, rfl⟩)
    · refine ⟨.inl hd, fun k _ => ?_⟩
      rw [slotNumber?_frameWord_of_nonneg (hB d hd)]
      exact fun h => nomatch h
    · refine ⟨.inr ⟨n, k, hn, trivial, rfl⟩, fun j hj hslot => ?_⟩
      have hk : slotNumber? (frameWord (-8 * Int64.ofInt k)) = some (k : Int) :=
        slotNumber?_slot (isSlot_of_dense hdense hsize hn)
      rw [hk] at hslot
      obtain rfl : k = j := by exact_mod_cast Option.some.inj hslot
      obtain ⟨u, _, hu⟩ := mem_filterMap.mp hj
      rw [hslots] at hu
      exact hp ⟨u, hdense.inj hn hu⟩
  symbol h := h
  stack h := h

/-- Instructions that are not dropped have words that stay. -/
theorem Between.allows_kept (h : Between B slots issued code) (hB : ∀ d, B.frame d → ¬ d < 0)
    (hsize : slots.size < 2 ^ 60) (hslots : f.slots = slots) (hx : x ∈ code)
    (hkept : f.isDropped x = false) :
    (framing (between B slots issued fun _ => True) f.Keeps).Allows x := by
  rcases h.code hx with hx | ⟨hx, hmove⟩
  · exact hx.mono (between_le_framing hB h.dense hsize hslots)
  · have hidle : ∀ m, f.isIdle (.mem m) = false → f.Keeps m := by
      intro m hm k hk hslot
      simp only [Finish.isIdle, hslot, any_eq_false, decide_eq_true_eq] at hm
      exact hm k hk rfl
    cases hx with
    | @mov d s hpair =>
      simp only [Finish.isDropped, Bool.or_eq_false_iff] at hkept
      refine .mov (Pair.framing hpair ?_ ?_)
      · rintro m rfl
        exact hidle m hkept.1
      · rintro m rfl
        exact hidle m hkept.2
    | _ => cases hmove

variable {round : Round} {live : Liveness} {returns : Bool}

theorem reg_of_mov_reg {S : Shape} {d s : Reg} (h : S.Allows (.mov (.reg d) (.reg s))) :
    S.reg d ∧ S.reg s := by
  cases h with
  | mov h =>
    cases h with
    | reg hd hs =>
      cases hs with
      | value hv =>
        cases hv with
        | reg hs => exact ⟨hd, hs⟩

section

variable (h : Between B slots issued code) (hfinds : round.Finds live code returns)
  (hspilled : round.spilled = []) (hcolors : round.Tells live f.colors)

include h hfinds hspilled in
/-- In code between rounds all colours are of the palette. -/
theorem Between.mem_palette {c : MachineReg} (hle : Vars.machineCount ≤ k) (hlt : k < live.vars.size)
    (hcolor : round.coloring.color? round.work k = some c) : c ∈ palette := by
  refine hfinds.color_mem_palette hspilled ?_ hle hlt hcolor
  intro d s hmov r hr
  obtain ⟨hd, hs⟩ := reg_of_mov_reg (h.shape _ hmov)
  have hwork : Workable r := by
    simp only [mem_cons, not_mem_nil, or_false] at hr
    rcases hr with rfl | rfl
    · exact hd.1
    · exact hs.1
  exact ⟨hwork.name_ne (proper_machine .rsp) hwork.rsp,
    hwork.name_ne (proper_machine .rbp) hwork.rbp⟩

include h hfinds in
/-- A register with a number behind the machine's is one that can be coloured. -/
theorem Between.workable {r : Reg} (hle : Vars.machineCount ≤ k) (hk : live.vars.regs[k]? = some r) :
    Workable r ∧ ∀ q, r ≠ .machine q := by
  have hmachine := hfinds.ne_machine hle hk
  refine ⟨?_, hmachine⟩
  rcases hfinds.solves.known hk with ⟨q, rfl⟩ | ⟨x, hx, hr⟩
  · exact absurd rfl (hmachine q)
  · rcases (h.shape x hx).reg_of_mem hr with hr | ⟨q, rfl⟩
    · exact hr.1
    · exact absurd rfl (hmachine q)

include hfinds in
/-- A register of code that can be coloured and is not the machine's has a number behind the
machine's. -/
theorem number_of_workable {r : Reg} (hx : x ∈ code)
    (hr : r ∈ uses x ∨ r ∈ defs x) (hwork : Workable r) (hmachine : ∀ q, r ≠ .machine q) :
    ∃ k q, Vars.machineCount ≤ k ∧ live.vars.regs[k]? = some q ∧ q.name = r.name := by
  obtain ⟨i, hi⟩ := mem_iff_getElem?.mp hx
  obtain ⟨k, hk⟩ := hfinds.solves.numbered hi (hr.imp_left .inl)
  obtain ⟨q, hq, hname⟩ := hfinds.solves.fits.id?_eq_some.mp hk
  refine ⟨k, q, ?_, hq, hname⟩
  by_contra hlt
  have hlt' : Vars.isMachine k = true := decide_eq_true (Nat.lt_of_not_le hlt)
  obtain ⟨m, _, rfl⟩ := (isMachine_iff hfinds.solves hq).mp hlt'
  exact hwork.name_ne (proper_machine m) (hmachine m) hname.symm

include hfinds hspilled hcolors in
/-- Where nothing is spilled, such a register has a colour. -/
theorem exists_colored {r : Reg} (hx : x ∈ code) (hr : r ∈ uses x ∨ r ∈ defs x)
    (hwork : Workable r) (hmachine : ∀ q, r ≠ .machine q) :
    ∃ k c, Vars.machineCount ≤ k ∧ k < live.vars.size ∧
      round.coloring.color? round.work k = some c ∧ f.colors[r.name]? = some c := by
  obtain ⟨k, q, hle, hq, hname⟩ := number_of_workable hfinds hx hr hwork hmachine
  have hlt := (Array.getElem?_eq_some_iff.mp hq).1
  obtain ⟨c, hc⟩ := hfinds.exists_color hspilled hlt
  exact ⟨k, c, hle, hlt, hc, (hcolors _ _).mpr ⟨k, q, hle, hq, hname, hc⟩⟩

include hfinds hcolors in
theorem Round.Finds.reg_machine (q : MachineReg) : f.reg (.machine q) = .machine q := by
  unfold Finish.reg
  cases hc : f.colors[(Reg.machine q).name]? with
  | none => rfl
  | some c =>
    obtain ⟨k, r, hle, hk, hname, _⟩ := (hcolors _ _).mp hc
    have hindex := eq_of_name_eq hfinds.solves hk (hfinds.solves.machine q) hname
    have hlt := q.index.isLt
    simp only [Vars.machineCount] at hle
    omega

include h hfinds hspilled hcolors

/-- Colours are of the palette, and given to no register of the machine. -/
theorem Between.colored {n : Name} {c : MachineReg} (hc : f.colors[n]? = some c) :
    ∃ r : Reg, r.name = n ∧ Workable r ∧ (∀ q, r ≠ .machine q) ∧ c ∈ palette := by
  obtain ⟨k, r, hle, hk, hname, hcolor⟩ := (hcolors _ _).mp hc
  obtain ⟨hwork, hmachine⟩ := h.workable hfinds hle hk
  have hlt := (Array.getElem?_eq_some_iff.mp hk).1
  exact ⟨r, hname, hwork, hmachine, h.mem_palette hfinds hspilled hle hlt hcolor⟩

/-- Finishing takes the code that the last round leaves to finished code. -/
theorem Between.maps (hB : ∀ d, B.frame d → ¬ d < 0) (hsize : slots.size < 2 ^ 60)
    (hslots : f.slots = slots) (hx : x ∈ code) :
    f.Maps ((framing (between B slots issued fun _ => True) f.Keeps).having (· ∈ x.namedRegs))
      (finished B f.kept.length) := by
  have hmachine := hfinds.reg_machine hcolors
  have hrip : f.reg .rip = .rip := by
    unfold Finish.reg
    cases hc : f.colors[Reg.rip.name]? with
    | none => rfl
    | some c =>
      obtain ⟨q, hname, hwork, _⟩ := h.colored hfinds hspilled hcolors hc
      exact absurd hname (hwork.name_ne proper_rip hwork.rip)
  refine {
    reg := ?_
    rip := hrip
    rsp := hmachine .rsp
    rbp := hmachine .rbp
    rax := hmachine .rax
    frame := ?_
    symbol := id
    stack := id
    machine := ?_
    apart := ?_ }
  · rintro r ⟨⟨hwork, _⟩, hr⟩
    by_cases hm : ∃ m, r = .machine m
    · obtain ⟨m, rfl⟩ := hm
      exact ⟨m, hwork.mem_palette, hmachine m⟩
    · push Not at hm
      have hnamed := Shape.mem_uses_or_defs_of_named hr hwork.rip
      obtain ⟨k, c, hle, hlt, hcolor, hc⟩ := exists_colored hfinds hspilled hcolors hx hnamed hwork hm
      refine ⟨c, h.mem_palette hfinds hspilled hle hlt hcolor, ?_⟩
      unfold Finish.reg
      rw [hc]
  -- What the caller pushed stays where it is, and a slot that is kept is renumbered.
  · rintro d ⟨hd | ⟨n, k, hn, _, rfl⟩, hkeeps⟩
    · refine ⟨frameWord d, ?_, .frame (.inl hd)⟩
      unfold Finish.mem
      rw [slotNumber?_frameWord_of_nonneg (hB d hd)]
    · have hk : slotNumber? (frameWord (-8 * Int64.ofInt k)) = some (k : Int) :=
        slotNumber?_slot (isSlot_of_dense h.dense hsize hn)
      have hmem : k ∈ f.kept := by
        rw [Finish.mem_kept, hslots]
        exact ⟨⟨n, hn⟩, fun hk' => hkeeps k hk' hk⟩
      obtain ⟨j, hj, hpos, hle⟩ := Finish.renumber?_of_mem hmem
      refine ⟨_, ?_, .frame (.inr ⟨j, hpos, hle, rfl⟩)⟩
      unfold Finish.mem
      rw [hk]
      dsimp only
      rw [hj]
      rfl
  · rintro r ⟨q, _, rfl⟩
    rfl
  · rintro ⟨q, hq, heq⟩
    obtain rfl := Reg.machine.inj heq
    revert hq
    decide

end

/-- The last round finishes its code. -/
theorem Between.finish (h : Between B slots issued code) (hfinds : round.Finds live code returns)
    (hspilled : round.spilled = []) (hB : ∀ d, B.frame d → ¬ d < 0)
    (hsize : slots.size < 2 ^ 60) : ∃ colors, round.colors = .ok colors ∧
      ∀ f : Finish, f.colors = .ofList colors → f.slots = slots →
        ∃ out, f.code code = .ok out ∧ (finished B f.kept.length).Code out := by
  obtain ⟨colors, hok, hcolors, _⟩ := hfinds.colors_spec hspilled
  refine ⟨colors, hok, ?_⟩
  intro f hf hslots
  have hinstr : ∀ x ∈ code.filter fun x => !f.isDropped x,
      ∃ y, f.instr x = .ok y ∧ (finished B f.kept.length).Allows y := by
    intro x hx
    obtain ⟨hx, hkept⟩ := mem_filter.mp hx
    rw [Bool.not_eq_true'] at hkept
    have hallows := h.allows_kept hB hsize hslots hx hkept
    have hmaps := h.maps hfinds hspilled (by rwa [hf]) hB hsize hslots hx
    exact hmaps.instr (hallows.having fun _ hr => hr)
  unfold Finish.code
  cases hres : (code.filter fun x => !f.isDropped x).mapM f.instr with
  | error d =>
    obtain ⟨x, hx, hfail⟩ := exists_of_mapM_eq_error hres
    obtain ⟨y, hy, _⟩ := hinstr x hx
    rw [hy] at hfail
    cases hfail
  | ok out =>
    refine ⟨out, rfl, ?_⟩
    intro y hy
    obtain ⟨x, hx, hxy⟩ := exists_mem_of_forall₂ (mapM_eq_ok.mp hres) hy
    obtain ⟨y', hy', hallows⟩ := hinstr x hx
    rw [hxy] at hy'
    rwa [Except.ok.inj hy']

end

/-! ## All rounds -/

/-- Rounds that spill lead from code with slots to code with more slots. -/
inductive Spills (returns : Bool) : Slots → Supply → List Instr → Slots → Supply → List Instr → Prop
  | none {slots : Slots} {supply : Supply} {code : List Instr} :
      Spills returns slots supply code slots supply code
  | round {slots slots' : Slots} {supply supply' supply'' : Supply}
      {code code' code'' : List Instr} {round : Round} (hround : Round.ofCode returns code = .ok round)
      (hspilled : round.spilled ≠ [])
      (hcode : (Spilling.code (addSlots slots round.spilled).2 code).run supply = .ok (code', supply'))
      (hrest : Spills returns (addSlots slots round.spilled).1 supply' code' slots' supply'' code'') :
      Spills returns slots supply code slots' supply'' code''

/-- The round that has nothing to spill. -/
def lastRound (done : Nat) (slots : Slots) (supply : Supply) (code : List Instr) (round : Round) :
    Except Defect Allocated := do
  let colors ← round.colors
  let f : Finish := {
    colors := .ofList colors
    unused := Finish.unusedOf (colors.map Prod.snd)
    slots }
  return { code := ← f.code code, slots := f.kept.length, rounds := done, supply }

section

variable {B : Shape} {slots : Slots} {supply : Supply} {code : List Instr} {returns : Bool}
  {round : Round}
variable {fuel done : Nat}

theorem rounds_of_spilled_eq_nil (hround : Round.ofCode returns code = .ok round)
    (hspilled : round.spilled = []) :
    rounds returns (fuel + 1) done slots supply code =
      lastRound (done + 1) slots supply code round := by
  rw [rounds, hround]
  simp only [bind, Except.bind, hspilled]
  rfl

theorem rounds_of_spilled_ne_nil (hround : Round.ofCode returns code = .ok round)
    (hspilled : round.spilled ≠ []) {code' : List Instr} {supply' : Supply}
    (hcode : (Spilling.code (addSlots slots round.spilled).2 code).run supply = .ok (code', supply')) :
    rounds returns (fuel + 1) done slots supply code =
      rounds returns fuel (done + 1) (addSlots slots round.spilled).1 supply' code' := by
  rw [rounds, hround]
  simp only [bind, Except.bind, hcode]

theorem Between.canSpill (h : Between B slots supply.issued code)
    (hround : Round.ofCode returns code = .ok round) :
    CanSpill B slots supply.issued round.spilled ∧ (round.spilled.map Reg.name).Nodup := by
  obtain ⟨live, hfinds⟩ := Round.ofCode_finds hround
  obtain ⟨hnodup, hspilled⟩ := hfinds.spilled_spec
  refine ⟨?_, hnodup⟩
  intro r hr
  obtain ⟨hmachine, x, hx, hnamed⟩ := hspilled r hr
  refine ⟨?_, hmachine⟩
  rcases (h.shape x hx).reg_of_mem hnamed with hreg | ⟨q, rfl⟩
  · exact hreg
  · exact absurd rfl (hmachine q)

/-- The rounds come to code that cannot be analysed or needs no more spilling, or there are
too many of them. -/
theorem rounds_cases (fuel done : Nat) (h : Between B slots supply.issued code) :
    rounds returns fuel done slots supply code = .error .unsettled ∨
    ∃ slots' supply' code', Spills returns slots supply code slots' supply' code' ∧
      Between B slots' supply'.issued code' ∧
      ((∃ d, Round.ofCode returns code' = .error d ∧
        rounds returns fuel done slots supply code = .error d) ∨
      ∃ round n, Round.ofCode returns code' = .ok round ∧ round.spilled = [] ∧
        rounds returns fuel done slots supply code = lastRound n slots' supply' code' round) := by
  induction fuel generalizing done slots supply code with
  | zero => exact .inl rfl
  | succ fuel ih =>
    cases hround : Round.ofCode returns code with
    | error d =>
      right
      refine ⟨slots, supply, code, .none, h, .inl ⟨d, hround, ?_⟩⟩
      rw [rounds, hround]
      rfl
    | ok round =>
      by_cases hspilled : round.spilled = []
      · right
        exact ⟨slots, supply, code, .none, h, .inr ⟨round, done + 1, hround, hspilled,
          rounds_of_spilled_eq_nil hround hspilled⟩⟩
      · obtain ⟨hcan, hnodup⟩ := h.canSpill hround
        obtain ⟨code', supply', hcode, hnext⟩ := h.spill hcan hnodup
        rw [rounds_of_spilled_ne_nil hround hspilled hcode]
        rcases ih (done + 1) hnext with hfail | ⟨slots', supply'', code'', hspills, hrest⟩
        · exact .inl hfail
        · exact .inr ⟨slots', supply'', code'', .round hround hspilled hcode hspills, hrest⟩

/-- The last round gives finished code, if slots are numbered within words. -/
theorem Between.lastRound_spec (h : Between B slots supply.issued code)
    (hround : Round.ofCode returns code = .ok round) (hspilled : round.spilled = [])
    (hB : ∀ d, B.frame d → ¬ d < 0) (hsize : slots.size < 2 ^ 60) (done : Nat) :
    ∃ result, lastRound done slots supply code round = .ok result ∧
      (finished B result.slots).Code result.code := by
  obtain ⟨live, hfinds⟩ := Round.ofCode_finds hround
  obtain ⟨colors, hcolors, hfinish⟩ := h.finish hfinds hspilled hB hsize
  obtain ⟨out, hout, hshape⟩ := hfinish {
    colors := .ofList colors
    unused := Finish.unusedOf (colors.map Prod.snd)
    slots } rfl rfl
  refine ⟨⟨out, _, done, supply⟩, ?_, hshape⟩
  unfold lastRound
  rw [hcolors]
  simp only [bind, Except.bind, hout]
  rfl

/-- The slots that a finished function needs are almost all that were given. -/
theorem size_le_of_lastRound (h : Dense slots) {result : Allocated}
    (hresult : lastRound done slots supply code round = .ok result) :
    slots.size ≤ result.slots + 5 := by
  obtain ⟨colors, _, hresult⟩ := bind_eq_ok.mp hresult
  obtain ⟨out, _, hresult⟩ := bind_eq_ok.mp hresult
  obtain rfl := pure_eq_ok.mp hresult
  have hle := Finish.size_le_kept (f := {
    colors := .ofList colors
    unused := Finish.unusedOf (colors.map Prod.snd)
    slots }) h
  have hunused := Finish.length_unusedOf_le (colors.map Prod.snd)
  exact Nat.le_trans hle (Nat.add_le_add_left hunused _)

/-- Allocated code comes from a last round. -/
theorem exists_between_lastRound (h : Between B slots supply.issued code) {result : Allocated}
    (hresult : rounds returns fuel done slots supply code = .ok result) :
    ∃ slots' supply' code' round n, Spills returns slots supply code slots' supply' code' ∧
      Between B slots' supply'.issued code' ∧ Round.ofCode returns code' = .ok round ∧
      round.spilled = [] ∧ lastRound n slots' supply' code' round = .ok result := by
  rcases rounds_cases fuel done h with hfail | ⟨slots', supply', code', hspills, hbetween, hend⟩
  · rw [hresult] at hfail
    cases hfail
  · rcases hend with ⟨d, _, hfail⟩ | ⟨round, n, hround, hspilled, heq⟩
    · rw [hresult] at hfail
      cases hfail
    · exact ⟨slots', supply', code', round, n, hspills, hbetween, hround, hspilled, heq ▸ hresult⟩

/-- Allocated code is finished code, if it needs few slots. -/
theorem finished_of_rounds (h : Between B slots supply.issued code) (hB : ∀ d, B.frame d → ¬ d < 0)
    {result : Allocated} (hresult : rounds returns fuel done slots supply code = .ok result)
    (hsmall : result.slots < 2 ^ 59) : (finished B result.slots).Code result.code := by
  obtain ⟨slots', supply', code', round, n, _, hbetween, hround, hspilled, hlast⟩ :=
    exists_between_lastRound h hresult
  have hle := size_le_of_lastRound hbetween.dense hlast
  obtain ⟨result', hresult', hshape⟩ := hbetween.lastRound_spec hround hspilled hB (by omega) n
  rw [hlast] at hresult'
  rwa [Except.ok.inj hresult']

end

end X64Backend.Alloc
