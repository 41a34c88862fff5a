import Mathlib.Data.List.Forall2
import X64Backend.Proofs.Alloc.Blockwise
import X64Backend.Proofs.Alloc.Stages

/-! # Rounds of spilling keep the meaning

A slot is seen as the register that got it. In that view a round of spilling only adds copies
of registers, to and from registers issued for one instruction, so the code after it runs as
the code before it does. All rounds together do so too.
-/

namespace X64Backend.Alloc

open Asm Machine List

variable {x : Instr} {slots : Slots}

/-- The register that has a slot. -/
def homeOf (slots : Slots) (k : Nat) : Reg :=
  match slots.toList.find? fun p => p.2 = k with
  | some p => .ofName p.1
  | none => .rip

/-- An instruction with slots seen as the registers that have them. -/
abbrev viewed (slots : Slots) (x : Instr) : Instr := homedInstr (homeOf slots) x

section

variable {slots : Slots} {n : Name} {k : Nat} {r : Reg}

theorem homeOf_eq (h : Dense slots) (hn : slots[n]? = some k) : homeOf slots k = .ofName n := by
  have hmem : (n, k) ∈ slots.toList := Std.TreeMap.mem_toList_iff_getElem?_eq_some.mpr hn
  unfold homeOf
  split
  next p hp =>
    have hk : p.2 = k := by simpa using find?_some hp
    have hp' : slots[p.1]? = some p.2 :=
      Std.TreeMap.mem_toList_iff_getElem?_eq_some.mp (mem_of_find?_eq_some hp)
    have hname : p.1 = n := h.inj (hk ▸ hp') hn
    rw [hname]
  next hnone =>
    have := find?_eq_none.mp hnone (n, k) hmem
    simp at this

theorem homeOf_name (h : Dense slots) (hr : r.Proper) (hn : slots[r.name]? = some k) :
    homeOf slots k = r := (homeOf_eq h hn).trans hr

end

theorem label?_homedInstr (home : Nat → Reg) (x : Instr) :
    (homedInstr home x).label? = x.label? := by
  cases x <;> rfl

theorem homedInstr_eq_label {home : Nat → Reg} {l : Name} :
    homedInstr home x = .label l ↔ x = .label l := by
  rw [← Instr.label?_eq_some, label?_homedInstr, Instr.label?_eq_some]

/-- Labels stay where they are. -/
theorem position?_homed (home : Nat → Reg) (code : List Instr) (l : Name) :
    position? (code.map (homedInstr home)) l = position? code l := by
  induction code with
  | nil => rfl
  | cons x code ih => simp only [map_cons, position?, ih, homedInstr_eq_label]

theorem labels_homed (home : Nat → Reg) (code : List Instr) :
    labels (code.map (homedInstr home)) = labels code := by
  rw [labels, labels, filterMap_map]
  congr 1
  funext x
  exact label?_homedInstr home x

/-! ## Slots seen as registers -/

/-- The symbols whose values an instruction needs are of the kind it is over. -/
theorem symbols_of_fine {P : Reg → Prop} {slot : Nat → Prop} {sym : Name → Prop} {n : Name}
    (hx : x.Fine P slot sym) (hn : n ∈ x.symbols) : sym n := by
  have hconst : ∀ {c : Const}, c.Fine sym → n ∈ c.symbols → sym n := by
    intro c hc hn
    cases c with
    | imm v => cases hn
    | sym m =>
      obtain rfl := mem_singleton.mp hn
      exact hc
  have hop : ∀ {a : Operand}, a.Fine P slot sym → n ∈ a.symbols → sym n := by
    intro a ha hn
    cases a with
    | const c => exact hconst ha hn
    | mem m =>
      rcases ha with ⟨k, _, rfl⟩ | hm
      · cases hn
      · exact hconst hm.1 hn
    | _ => cases hn
  cases x with
  | mov d a | cmp d a => exact (mem_append.mp hn).elim (hop hx.1) (hop hx.2)
  | lea d m => exact hconst hx.2.1 hn
  | arith op d a =>
    rcases hx with ⟨rfl, _, v, rfl⟩ | hx
    · cases hn
    · exact (mem_append.mp hn).elim (hop hx.1) (hop hx.2)
  | call a =>
    rcases hx with ⟨m, rfl⟩ | hx
    · cases hn
    · refine hop hx ?_
      cases a with
      | const c =>
        cases c with
        | sym m => cases hn
        | imm v => exact hn
      | _ => exact hn
  | imul d a | imul3 d a k => exact hop hx.2 hn
  | idiv a | neg a | shl a k | push a => exact hop hx hn
  | _ => cases hn

section

variable {home : Nat → Reg} {P : Reg → Prop} {slot : Nat → Prop} {sym : Name → Prop} {x : Instr}

/-- What is seen as a register is at the frame pointer. -/
theorem homed_mem_cases (home : Nat → Reg) (m : Mem) : homed home (.mem m) = .mem m ∨
    ∃ k, homed home (.mem m) = .reg (home k) ∧ m.base = some .rbp ∧ m.index = none := by
  cases hslot : slotNumber? m with
  | none => exact .inl (by rw [homed, hslot])
  | some n =>
    refine .inr ⟨n.toNat, by rw [homed, hslot], ?_⟩
    unfold slotNumber? at hslot
    split at hslot
    next hbase hindex _ => exact ⟨hbase, hindex⟩
    next => cases hslot

/-- With slots seen as registers, an instruction is over registers only. -/
theorem fine_homed {P' : Reg → Prop} (hx : x.Fine P slot sym) (hrbp : ¬ P .rbp)
    (hP : ∀ r, P r → P' r) (hslot : ∀ k, slot k → IsSlot k ∧ P' (home k)) :
    (homedInstr home x).Fine P' (fun _ => False) sym := by
  have hop : ∀ {a : Operand}, a.Fine P slot sym → (homed home a).Fine P' (fun _ => False) sym := by
    intro a ha
    cases a with
    | reg r => exact hP r ha
    | const c => exact ha
    | absent => trivial
    | mem m =>
      rcases ha with ⟨k, hk, rfl⟩ | hm
      · rw [homed_slot home (hslot k hk).1]
        exact (hslot k hk).2
      · rw [homed_plain home hm hrbp]
        exact .inr (hm.imp fun r _ => hP r)
  cases x with
  | movAbs d v | set c d => exact hP d hx
  | mov d a | cmp d a => exact ⟨hop hx.1, hop hx.2⟩
  | lea d m => exact ⟨hP d hx.1, hx.2.imp fun r _ => hP r⟩
  | call a =>
    rcases hx with ⟨n, rfl⟩ | hx
    · exact .inl ⟨n, rfl⟩
    · exact .inr (hop hx)
  | arith op d a =>
    rcases hx with ⟨rfl, hop, v, rfl⟩ | hx
    · exact .inl ⟨rfl, hop, v, rfl⟩
    · exact .inr ⟨hop hx.1, hop hx.2⟩
  | imul d a | imul3 d a k => exact ⟨hP d hx.1, hop hx.2⟩
  | idiv a | neg a | shl a k | push a => exact hop (a := a) hx
  | ret | popRbp => exact hx
  | jump c l | cqo | label l | comment text | absent => trivial

end

section

variable {home : Nat → Reg} {P P' U : Reg → Prop} {slot slot' : Nat → Prop} {sym : Name → Prop}
  {new : Slots} {rs : List Reg} {fs : Fetches} {x y : Instr} {store : List Instr}

/-- Spilling, with slots seen as registers: what is carried, where the slots are and which of them
are old. -/
structure Views (home : Nat → Reg) (new : Slots) (P : Reg → Prop) (slot : Nat → Prop)
    (P' : Reg → Prop) (slot' : Nat → Prop) (U : Reg → Prop) : Prop where
  carries : Carries new P slot P' slot' U
  rbp : ¬ P .rbp ∧ ¬ P' .rbp
  old {k : Nat} (h : slot k) : IsSlot k ∧ new[(home k).name]? = none
  given {n : Name} {k : Nat} (h : new[n]? = some k) : IsSlot k

/-- Registers that a slot is seen as. -/
abbrev asReg (home : Nat → Reg) (k : Nat) : Operand := .reg (home k)

variable (hV : Views home new P slot P' slot' U) (hfs : Fetching new U rs fs)

include hV hfs

theorem CarriedMem.homed {m n : Mem} (h : CarriedMem new fs m n)
    (hm : (Operand.mem m).Fine P slot sym) :
    PlacedAs (asReg home) new fs (Alloc.homed home (.mem m)) (Alloc.homed home (.mem n)) := by
  rcases hm with ⟨k, hk, rfl⟩ | hm
  · rw [h.eq_of_none (forall_mem_singleton.mpr (hV.carries.machine .rbp)),
      homed_slot home (hV.old hk).1]
    exact .reg (hV.old hk).2
  · rw [homed_plain home hm hV.rbp.1, homed_plain home (h.plain hV.carries hfs hm) hV.rbp.2]
    exact .mem h

theorem PlacedAs.homed {a b : Operand} (h : PlacedAs inFrame new fs a b)
    (ha : a.Fine P slot sym) :
    PlacedAs (asReg home) new fs (Alloc.homed home a) (Alloc.homed home b) := by
  cases h with
  | reg h => exact .reg h
  | slot h =>
    rw [homed_slot home (hV.given h)]
    exact .slot h
  | mem h => exact h.homed hV hfs ha
  | const c => exact .const c
  | absent => exact .absent

theorem ReadAs.homed {a b : Operand} (h : ReadAs inFrame new fs a b)
    (ha : a.Fine P slot sym) :
    ReadAs (asReg home) new fs (Alloc.homed home a) (Alloc.homed home b) := by
  cases h with
  | reg h => exact .reg h
  | slot h =>
    rw [homed_slot home (hV.given h)]
    exact .slot h
  | mem h => exact (h.homed hV hfs ha).readAs
  | const c => exact .const c
  | absent => exact .absent

omit hfs in
theorem homedInstr_store {n : Name} {k : Nat} (hn : new[n]? = some k) (q : Reg) :
    homedInstr home (.mov (inFrame k) (.reg q)) = .mov (asReg home k) (.reg q) := by
  rw [homedInstr, Instr.mapOperands, homed_slot home (hV.given hn), homed_reg]

omit hfs in
theorem WrittenAs.homed {d e : Reg} (h : WrittenAs inFrame new U d e store) :
    WrittenAs (asReg home) new U d e (store.map (homedInstr home)) := by
  cases h with
  | kept h => exact .kept h
  | stored h hq =>
    rw [map_singleton, homedInstr_store hV h]
    exact .stored h hq

omit hfs in
theorem UpdatedAs.homed {d e : Reg} (h : UpdatedAs inFrame new fs d e store) :
    UpdatedAs (asReg home) new fs d e (store.map (homedInstr home)) := by
  cases h with
  | kept h => exact .kept h
  | stored h hq =>
    rw [map_singleton, homedInstr_store hV h]
    exact .stored h hq

theorem Core.homed (h : Core inFrame new U fs x y store) (hx : x.Fine P slot sym) :
    Core (asReg home) new U fs (homedInstr home x) (homedInstr home y)
      (store.map (homedInstr home)) := by
  cases h with
  | movAbs h => exact .movAbs (h.homed hV)
  | mov hd ha => exact .mov (hd.homed hV hfs hx.1) (ha.homed hV hfs hx.2)
  | movReg h ha => exact .movReg (h.homed hV) (ha.homed hV hfs hx.2)
  | lea h hm => exact .lea (h.homed hV) hm
  | cmp ha hc => exact .cmp (ha.homed hV hfs hx.1) (hc.homed hV hfs hx.2)
  | set h => exact .set (h.homed hV)
  | call ha =>
    rcases hx with ⟨n, rfl⟩ | hx
    · cases ha
      exact .call (.const _)
    · exact .call (ha.homed hV hfs hx)
  | arith hd ha =>
    rcases hx with ⟨rfl, _, v, rfl⟩ | hx
    · have hrsp := hV.carries.machine .rsp
      obtain rfl := hd.readAs.eq_of_none (forall_mem_singleton.mpr hrsp)
      cases ha
      exact .arith (.reg hrsp) (.const _)
    · exact .arith (hd.homed hV hfs hx.1) (ha.homed hV hfs hx.2)
  | arithReg h ha =>
    refine .arithReg (h.homed hV) ?_
    rcases hx with ⟨_, _, v, rfl⟩ | hx
    · cases ha
      exact .const _
    · exact ha.homed hV hfs hx.2
  | imul h ha | imul3 h ha =>
    constructor
    · exact h.homed hV
    · exact ha.homed hV hfs hx.2
  | idiv ha | neg ha | shl ha | push ha =>
    constructor
    exact ha.homed hV hfs hx
  | bare hbare =>
    have hsame : homedInstr home x = x := by cases x <;> first | rfl | cases hbare
    rw [hsame]
    exact .bare hbare

omit hV hfs in
/-- Registers other than the frame pointer are still named. -/
theorem named_homed {r : Reg} (hr : r ∈ x.namedRegs) (hrbp : r ≠ .rbp) :
    r ∈ (homedInstr home x).namedRegs := by
  have hop : ∀ {a : Operand}, r ∈ a.namedRegs → r ∈ (Alloc.homed home a).namedRegs := by
    intro a ha
    cases a with
    | mem m =>
      grind [homed_mem_cases, Operand.namedRegs, Mem.namedRegs]
    | _ => exact ha
  cases x with
  | mov d a | cmp d a | arith op d a =>
    exact mem_append.mpr ((mem_append.mp hr).imp hop hop)
  | imul d a | imul3 d a k => exact mem_cons.mpr ((mem_cons.mp hr).imp_right hop)
  | call a | idiv a | neg a | shl a k | push a => exact hop (a := a) hr
  | _ => exact hr

omit hfs in
/-- With slots seen as registers, the code for an instruction still stands for it. -/
theorem Block.homed {block : List Instr} (h : Block inFrame new U x block)
    (hx : x.Fine P slot sym) :
    Block (asReg home) new U (homedInstr home x) (block.map (homedInstr home)) := by
  have hfetches : ∀ {fs : Fetches}, Fetching new U x.namedRegs fs →
      (fs.code inFrame).map (homedInstr home) = fs.code (asReg home) ∧
        Fetching new U (homedInstr home x).namedRegs fs := by
    intro fs hfs
    constructor
    · rw [Fetches.code, Fetches.code, map_map]
      refine map_congr_left fun p hp => ?_
      obtain ⟨r, _, hk⟩ := hfs.slot p hp
      simp only [Function.comp, homedInstr, Instr.mapOperands, homed_reg,
        homed_slot home (hV.given hk)]
    · refine ⟨hfs.scratch, fun p hp => ?_, hfs.nodup⟩
      obtain ⟨r, hr, hk⟩ := hfs.slot p hp
      refine ⟨r, named_homed hr ?_, hk⟩
      rintro rfl
      exact nomatch (hV.carries.machine .rbp).symm.trans hk
  cases h with
  | around hfs hcore =>
    rw [map_append, map_cons, (hfetches hfs).1]
    exact .around (hfetches hfs).2 (hcore.homed hV hfs hx)
  | @relayed fs op d q a b k hfs hd hq ha hb =>
    have hplain : (Instr.arith op (.reg d) a).Fine P slot sym → a.Fine P slot sym := by
      rintro (⟨_, _, v, rfl⟩ | hx)
      · trivial
      · exact hx.2
    have hview : homedInstr home (.arith op (inFrame k) (.reg q)) =
        .arith op (asReg home k) (.reg q) := by
      rw [homedInstr, Instr.mapOperands, homed_slot home (hV.given hd), homed_reg]
    rw [map_append, map_cons, map_singleton, hview, (hfetches hfs).1]
    refine .relayed (hfetches hfs).2 hd hq (ha.homed hV hfs (hplain hx)) fun c hc => ?_
    cases b with
    | const c => exact hb c rfl
    | mem m =>
      rcases homed_mem_cases home m with hsame | ⟨k, hreg, _⟩
      · exact nomatch hsame.symm.trans hc
      · exact nomatch hreg.symm.trans hc
    | _ => cases hc

end

/-- An instruction stands for what it is with slots seen as registers. -/
theorem block_homed {loc : Nat → Operand} {U P : Reg → Prop} {slot : Nat → Prop} {sym : Name → Prop}
    {home : Nat → Reg} (hx : x.Fine P slot sym) (hrbp : ¬ P .rbp)
    (hmachine : ∀ q, slots[(Reg.machine q).name]? = none) (hfree : ∀ r, P r → slots[r.name]? = none)
    (hslot : ∀ k, slot k → IsSlot k ∧ slots[(home k).name]? = some k ∧ loc k = inFrame k) :
    Block loc slots U (homedInstr home x) [x] := by
  -- Addresses are made of registers that have no slots.
  have hmem : ∀ {m : Mem}, m.Plain P sym → CarriedMem slots [] m m := by
    rintro ⟨base, index, disp⟩ hm
    have hregs : ∀ r ∈ Mem.regs ⟨base, index, disp⟩, slots[r.name]? = none := by
      intro r hr
      rcases hm.2 with ⟨hbase, hindex, _⟩ | hregs
      · obtain rfl : base = some .rbp := hbase
        obtain rfl : index = none := hindex
        obtain rfl : r = .rbp := mem_singleton.mp hr
        exact hmachine .rbp
      · exact hfree r (hregs r hr)
    refine ⟨?_, ?_, rfl⟩
    · cases base with
      | none => exact .none
      | some r =>
        by_cases hrip : r = .rip
        · subst hrip
          exact .rip
        · exact .reg hrip hrip (.kept (hregs r (by simp [Mem.regs])))
    · cases index with
      | none => exact .none
      | some p => exact .reg (.kept (hregs p.1 (by simp [Mem.regs])))
  have hop : ∀ {a : Operand}, a.Fine P slot sym → PlacedAs loc slots [] (homed home a) a := by
    intro a ha
    cases a with
    | reg r => exact .reg (hfree r ha)
    | const c => exact .const c
    | absent => exact .absent
    | mem m =>
      rcases ha with ⟨k, hk, rfl⟩ | hm
      · obtain ⟨hk, hhome, hloc⟩ := hslot k hk
        rw [homed_slot home hk, show Operand.mem (.slot k) = loc k from hloc.symm]
        exact .slot hhome
      · rw [homed_plain home hm hrbp]
        exact .mem (hmem hm)
  have hcore : Core loc slots U [] (homedInstr home x) x [] := by
    cases x with
    | movAbs d v => exact .movAbs (.kept (hfree d hx))
    | mov d a => exact .mov (hop hx.1) (hop hx.2).readAs
    | lea d m => exact .lea (.kept (hfree d hx.1)) (hmem hx.2)
    | cmp l r => exact .cmp (hop hx.1).readAs (hop hx.2).readAs
    | set c d => exact .set (.kept (hfree d hx))
    | call a =>
      rcases hx with ⟨n, rfl⟩ | hx
      · exact .call (.const _)
      · exact .call (hop hx).readAs
    | arith op d a =>
      rcases hx with ⟨rfl, _, v, rfl⟩ | hx
      · exact .arith (.reg (hmachine .rsp)) (.const _)
      · exact .arith (hop hx.1) (hop hx.2).readAs
    | imul d a | imul3 d a k =>
      constructor
      · exact .kept (hfree d hx.1)
      · exact (hop hx.2).readAs
    | idiv a | push a =>
      constructor
      exact (hop hx).readAs
    | neg a | shl a k =>
      constructor
      exact hop hx
    | _ => exact .bare rfl
  have hnil : Fetching slots U (homedInstr home x).namedRegs [] := ⟨by simp, by simp, by simp⟩
  exact .around hnil hcore

/-! ## Runs with slots seen as registers -/

/-- The registers of the machine. -/
def IsMachine (r : Reg) : Prop := ∃ q, r = .machine q

namespace Keeping

variable {K : Keeping} {T : Reg → Prop} {calls : Calls} {s t : State} {code : List Instr}
  {blocks : List (List Instr)}

/-- Code over registers that can be read, other than the frame pointer. -/
theorem Blocks.of_fine {P : Reg → Prop} {sym : Name → Prop}
    (hcode : ∀ x ∈ code, x.Fine P (fun _ => False) sym)
    (hP : ∀ r, P r → K.Trusts T r ∧ r ≠ .rbp) (hsym : ∀ n, sym n → n ∉ labels code)
    (hT : ∀ q, T (.machine q)) (hstands : List.Forall₂ (K.Stands T) code blocks) :
    K.Blocks T code blocks where
  machine := hT
  stands := hstands
  read x hx r hr := by
    rcases reg_of_fine (hcode x hx) (.inl hr) with hr | ⟨q, rfl⟩
    · exact (hP r hr).1
    · exact ⟨proper_machine q, fun _ => hT q⟩
  write x hx r hr := by
    rcases def_of_fine (hcode x hx) hr with hr | rfl | ⟨q, hq, rfl⟩
    · exact ⟨(hP r hr).1.proper, (hP r hr).2⟩
    · exact ⟨proper_machine _, by decide⟩
    · refine ⟨proper_machine q, ?_⟩
      rintro ⟨⟩
      exact absurd hq (by decide)
  symbols x hx n hn := hsym n (symbols_of_fine (hcode x hx) hn)
  ret hmem := hcode _ hmem

/-- Calls that keep the frame pointer and what is not the machine's go on with registers kept. -/
theorem calling_of_regular {shared : Reg → Prop} (hcalls : calls.Regular K.Z)
    (hT : ∀ q, T (.machine q)) : K.Calling T calls (SameEnd K.Z shared) := by
  intro s t c o' hag ho'
  have hregs : ∀ q, s.get (.machine q) = t.get (.machine q) := fun q =>
    (hag.reg (hT q) (K.free_machine q)).symm
  obtain ⟨o, ho, hsame⟩ := hcalls.same ⟨hag.world, hag.left, hag.right, hregs _, hregs _,
    fun q _ => hregs q⟩ ho'
  refine ⟨o, ho, ?_⟩
  cases hsame with
  | error hkind hworld => exact .error ⟨hkind, hworld⟩
  | @ok s' t' hworld hleft hright hset =>
    refine .ok ⟨⟨K.congr hag.own (fun n k _ => ?_) (fun r hr => ?_) fun a ha => ?_,
      fun {r} hr hfree => ?_, hworld, hleft, hright⟩, hcalls.ip ho, hcalls.ip ho'⟩
    · exact hcalls.regs ho _ fun q _ h => nomatch h
    · refine hcalls.regs ho' r ?_
      rintro q hq rfl
      rcases hr with hr | hr
      · obtain rfl := Reg.machine.inj hr
        exact absurd hq (by decide)
      · exact hr (K.free_machine q)
    · exact hcalls.memory ho' a ha
    · by_cases hcaller : ∃ q ∈ MachineReg.callerSaved, r = .machine q
      · obtain ⟨q, hq, rfl⟩ := hcaller
        exact (hset q hq).symm
      · have hne : ∀ q ∈ MachineReg.callerSaved, r ≠ .machine q := fun q hq h =>
          hcaller ⟨q, hq, h⟩
        rw [hcalls.regs ho r hne, hcalls.regs ho' r hne, hag.reg hr hfree]

theorem Holds.sameEnd (h : K.Holds T s t) (hT : ∀ q, T (.machine q)) :
    SameEnd K.Z IsMachine (.finished s) (.finished t) := by
  refine ⟨h.world, ?_⟩
  rintro _ ⟨q, rfl⟩
  exact (h.reg (hT q) (K.free_machine q)).symm

end Keeping

/-- Slots that all rounds together give out: of registers that could get them, and few enough
to be told apart in a frame. -/
structure Housing (slots : Slots) : Prop where
  dense : Dense slots
  small : slots.size < 2 ^ 60
  proper {n : Name} {k : Nat} (h : slots[n]? = some k) : Reg.ofName n = .abstract n

theorem Housing.isSlot (h : Housing slots) {n : Name} {k : Nat} (hn : slots[n]? = some k) :
    IsSlot k := isSlot_of_dense h.dense h.small hn

theorem Stage.housing {first mid : List Instr} {issued : Nat} (h : Stage first slots issued mid)
    (hsmall : slots.size < 2 ^ 60) : Housing slots := by
  refine ⟨h.dense, hsmall, fun hn => ?_⟩
  obtain ⟨r, rfl, hr, hne, _⟩ := h.spillable _ _ hn
  cases r with
  | machine q => exact absurd rfl (hne q)
  | rip => exact absurd rfl hr.rip
  | abstract n => exact hr.proper

/-- Registers with slots are kept in the registers that the slots are seen as, which are
themselves. -/
@[reducible] def Housing.keeping {all new : Slots} (h : Housing all)
    (hsub : ∀ (n : Name) (k : Nat), new[n]? = some k → all[n]? = some k) (Z : Int64 → Prop) :
    Keeping where
  slots := new
  loc := asReg (homeOf all)
  Z := Z
  Hidden := Z
  Own s t := ∀ (n : Name) (k : Nat), new[n]? = some k → t.get (.abstract n) = s.get (.abstract n)
  abstract hn := h.proper (hsub _ _ hn)
  loc_ne := fun h => nomatch h
  hidden h := h
  apart := fun hm => nomatch hm
  value {s t n k} img hown hn := by
    rw [asReg, homeOf_eq h.dense (hsub n k hn), h.proper (hsub n k hn)]
    exact congrArg Except.ok (hown n k hn)
  assign {s t n k} img hown hn v := by
    rw [asReg, homeOf_eq h.dense (hsub n k hn), h.proper (hsub n k hn)]
    refine ⟨t.set (.abstract n) v, rfl, fun m j hm => ?_, .of_eq rfl rfl rfl, rfl, rfl,
      fun r hr => State.get_set_of_ne t v ?_⟩
    · rw [State.get_set, State.get_set, hown m j hm]
    · rintro rfl
      exact nomatch hn.symm.trans hr
  congr hown hs ht _ n k hn := by
    have hfree : new[(Reg.abstract n).name]? ≠ none := fun h => nomatch hn.symm.trans h
    rw [ht _ (.inr hfree), hs n k hn, hown n k hn]

/-! ## One round -/

section

variable {first mid : List Instr} {slots all : Slots} {rs : List Reg}

/-- A round of spilling keeps what code does. -/
theorem Stage.runsAs_spilled {supply supply' : Supply} (h : Stage first slots supply.issued mid)
    (hnodup : (rs.map Reg.name).Nodup)
    (hrs : ∀ r ∈ rs, Spillable supply.issued r ∧ slots[r.name]? = none) {code' : List Instr}
    (hcode : (Spilling.code (addSlots slots rs).2 (enclosed slots mid)).run supply =
      .ok (code', supply'))
    (hall : Housing all)
    (hsub : ∀ (n : Name) (k : Nat), (addSlots slots rs).1[n]? = some k → all[n]? = some k)
    {calls : Calls} {Z : Int64 → Prop} (hcalls : calls.Regular Z)
    (globals : Std.TreeMap Name Int64) {s : State} (hs : s.ip = 0) :
    RunsAs calls (SameEnd Z IsMachine) (imageOf globals ((enclosed slots mid).map (viewed all)))
      (Apart Z (imageOf globals ((enclosed slots mid).map (viewed all)))) s
      (imageOf globals (code'.map (viewed all)))
      (Apart Z (imageOf globals (code'.map (viewed all)))) s := by
  have hext := addSlots_extends h.dense hnodup fun r hr => (hrs r hr).2
  generalize (addSlots slots rs).1 = slots' at hext hsub
  generalize (addSlots slots rs).2 = new at hext hcode
  obtain ⟨blocks, rfl, hle, hblocks⟩ := Spilling.exists_blocks hcode
  let K := hall.keeping (fun n k hn => hsub n k (hext.of_new hn)) Z
  let T := fun r : Reg => r.Proper ∧ ∀ j, r = .issued j → j < supply.issued
  have hT : ∀ q, T (.machine q) := fun q => ⟨proper_machine q, fun _ h => nomatch h⟩
  -- The homes of earlier slots are registers without slots in this round.
  have hold : ∀ {n : Name} {k : Nat}, slots[n]? = some k → IsSlot k ∧
      new[(homeOf all k).name]? = none ∧ T (homeOf all k) ∧ homeOf all k ≠ .rbp := by
    intro n k hn
    obtain ⟨hnew, hslot⟩ := hext.of_slot (fun r hr => (hrs r hr).2) hn
    obtain ⟨r, rfl, hr, hne, hbefore⟩ := h.spillable n k hn
    rw [homeOf_name hall.dense hr.proper (hsub _ k hslot)]
    exact ⟨hall.isSlot (hsub _ k hslot), hnew, ⟨hr.proper, hbefore⟩, hr.rbp⟩
  have hcarries := h.carries hext hrs hle (O := fun _ => True) (N := fun _ => True)
    (fun _ _ => trivial) fun _ => trivial
  have hgiven : ∀ {n : Name} {k : Nat}, new[n]? = some k → IsSlot k := fun hn =>
    hall.isSlot (hsub _ _ (hext.of_new hn))
  -- What this round issues is neither kept nor given a slot.
  have hfree : ∀ {begun ended : Supply} {r : Reg}, supply.issued ≤ begun.issued →
      Issued begun ended r → ¬ T r ∧ new[r.name]? = none := by
    rintro begun ended r hle ⟨j, hj, _, rfl⟩
    refine ⟨fun hT => absurd (hT.2 j rfl) (by omega), ?_⟩
    have hnone := hext.issued_free (fun r hr => (hrs r hr).1) h.spillable (Nat.le_trans hle hj)
    rw [Option.eq_none_iff_forall_ne_some] at hnone ⊢
    exact fun k hk => hnone k (hext.of_new hk)
  have hstands : List.Forall₂ (K.Stands T) ((enclosed slots mid).map (viewed all))
      (blocks.map (List.map (viewed all))) := by
    rw [forall₂_map_left_iff, forall₂_map_right_iff]
    refine ((forall₂_and_left _ _).mpr ⟨fun x hx => h.enclosed_fine hx, hblocks⟩).imp ?_
    rintro x block ⟨hx, begun, ended, hbegun, hended, hstands⟩
    have hnarrow := hcarries.narrow fun _ (hr : Issued begun ended _) => hr.mono hbegun hended
    refine .block (fun r hr => hfree hbegun hr) (hstands.block.homed ⟨hnarrow, ⟨?_, ?_⟩, ?_, hgiven⟩
      (hx.imp ?_ ?_))
    · exact fun hr => hr.1.workable.rbp rfl
    · exact fun hr => hr.1.workable.rbp rfl
    · exact fun ⟨n, hn, _⟩ => ⟨(hold hn).1, (hold hn).2.1⟩
    · exact fun _ _ hr => ⟨hr, trivial⟩
    · exact fun k ⟨n, hn⟩ => ⟨n, hn, trivial⟩
  have hfine : ∀ y ∈ (enclosed slots mid).map (viewed all),
      y.Fine (fun r => T r ∧ r ≠ .rbp) (fun _ => False) (· ∉ labels first) := by
    intro y hy
    obtain ⟨x, hx, rfl⟩ := mem_map.mp hy
    refine fine_homed (h.enclosed_fine hx) (fun hr => hr.workable.rbp rfl) (fun r hr => ?_)
      fun k ⟨n, hn⟩ => ⟨(hold hn).1, (hold hn).2.2⟩
    exact ⟨⟨hr.workable.proper, hr.before⟩, hr.workable.rbp⟩
  have hkeeps : K.Blocks T ((enclosed slots mid).map (viewed all))
      (blocks.map (List.map (viewed all))) := by
    refine .of_fine hfine (fun r hr => ⟨⟨hr.1.1, fun _ => hr.1⟩, hr.2⟩) (fun n hn => ?_) hT hstands
    rwa [labels_homed, h.labels_enclosed]
  -- No block is empty, so each step of the code is answered.
  have hne : [] ∉ blocks.map (List.map (viewed all)) := by
    intro hnil
    obtain ⟨block, hblock, hmap⟩ := mem_map.mp hnil
    obtain ⟨x, _, _, _, _, _, hb⟩ := exists_mem_of_forall₂ hblocks hblock
    exact hb.block.ne_nil (map_eq_nil_iff.mp hmap)
  rw [map_flatten]
  have sim := hkeeps.simulation_alone (μ := fun _ => 0) globals
    (Keeping.calling_of_regular hcalls hT) (fun hkind hworld => ⟨hkind, hworld⟩)
    (fun hag => hag.sameEnd hT) fun hnil => absurd hnil hne
  refine .of_simulation sim ⟨0, Nat.zero_le _, hs, hs, ?_⟩
  exact ⟨fun _ _ _ => rfl, fun _ _ => rfl, .refl s, rfl, rfl⟩

end

/-! ## All rounds -/

section

variable {first mid code code' : List Instr} {slots slots' : Slots} {supply supply' : Supply}
  {returns : Bool}

/-- Rounds lead from a stage to a stage, and slots stay. -/
theorem Spills.stage (hspills : Spills returns slots supply code slots' supply' code')
    (hcode : code = enclosed slots mid) (h : Stage first slots supply.issued mid) :
    (∃ mid', code' = enclosed slots' mid' ∧ Stage first slots' supply'.issued mid') ∧
      ∀ (n : Name) (k : Nat), slots[n]? = some k → slots'[n]? = some k := by
  induction hspills generalizing mid with
  | none => exact ⟨⟨mid, hcode, h⟩, fun _ _ => id⟩
  | round hround _ hspill _ ih =>
    subst hcode
    obtain ⟨hnodup, hrs⟩ := h.spilled hround
    obtain ⟨mid', hmid', hnext⟩ := h.spill hnodup hrs hspill
    obtain ⟨hlast, hkeeps⟩ := ih hmid' hnext
    have hext := addSlots_extends h.dense hnodup fun r hr => (hrs r hr).2
    refine ⟨hlast, fun n k hn => hkeeps n k ?_⟩
    exact (hext.of_slot (fun r hr => (hrs r hr).2) hn).2

/-- All rounds of spilling keep what code does. -/
theorem Spills.runsAs (hspills : Spills returns slots supply code slots' supply' code')
    (hcode : code = enclosed slots mid) (h : Stage first slots supply.issued mid)
    (hsmall : slots'.size < 2 ^ 60) {calls : Calls} {Z : Int64 → Prop} (hcalls : calls.Regular Z)
    (globals : Std.TreeMap Name Int64) {s : State} (hs : s.ip = 0) :
    RunsAs calls (SameEnd Z IsMachine) (imageOf globals (code.map (viewed slots')))
      (Apart Z (imageOf globals (code.map (viewed slots')))) s
      (imageOf globals (code'.map (viewed slots')))
      (Apart Z (imageOf globals (code'.map (viewed slots')))) s := by
  induction hspills generalizing mid with
  | none => exact .refl SameEnd.refl
  | @round slots all supply supply₁ supply₂ code code₁ code₂ round hround _ hspill hrest ih =>
    subst hcode
    obtain ⟨hnodup, hrs⟩ := h.spilled hround
    obtain ⟨mid', hmid', hnext⟩ := h.spill hnodup hrs hspill
    obtain ⟨⟨mid₂, _, hlast⟩, hsub⟩ := hrest.stage hmid' hnext
    have hall : Housing all := hlast.housing hsmall
    have hone := h.runsAs_spilled hnodup hrs hspill hall hsub hcalls globals hs
    exact hone.trans (ih hmid' hnext hsmall) SameEnd.trans

end

end X64Backend.Alloc
