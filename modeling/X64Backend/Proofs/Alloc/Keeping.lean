import X64Backend.Proofs.Alloc.Expansion
import X64Backend.Proofs.Dataflow.Uses
import X64Backend.Proofs.Machine.Matching
import X64Backend.Proofs.Machine.Moved
import X64Backend.Proofs.Names

/-! # Registers kept elsewhere

Abstract registers may be kept in other places: in words of memory, or in registers that stand
for them. A state of code that keeps them there is set beside a state in which they are
registers. Code that stands for an instruction then does what the instruction does, wherever
the places are.
-/

namespace X64Backend.Machine

open Asm

/-- Instructions one after another, of which none jumps. -/
def Image.execAll (img : Image) : List Instr → State → Outcome
  | [], s => .ok s
  | x :: xs, s => img.exec s.advance x >>= img.execAll xs

/-- Every instruction that is reached meets the side condition. -/
def Image.Clears (img : Image) (ok : State → Instr → Prop) : List Instr → State → Prop
  | [], _ => True
  | x :: xs, s => ok s x ∧ ∀ s', img.exec s.advance x = .ok s' → img.Clears ok xs s'

theorem Image.execAll_singleton (img : Image) (x : Instr) (s : State) :
    img.execAll [x] s = img.exec s.advance x := by
  rw [execAll]
  cases img.exec s.advance x <;> rfl

section

variable {img : Image} {ok : State → Instr → Prop} {xs : List Instr} {s s' : State}

theorem Seq.execAll_append (h : Seq img ok xs s s') (ys : List Instr) :
    img.execAll (xs ++ ys) s = img.execAll ys s' := by
  induction h with
  | nil => rfl
  | cons _ _ hexec _ ih =>
    rw [List.cons_append, Image.execAll, hexec]
    exact ih

theorem Seq.execAll_eq (h : Seq img ok xs s s') : img.execAll xs s = .ok s' := by
  have := h.execAll_append []
  rwa [List.append_nil] at this

theorem Seq.clears_append (h : Seq img ok xs s s') {ys : List Instr} (hys : img.Clears ok ys s') :
    img.Clears ok (xs ++ ys) s := by
  induction h with
  | nil => exact hys
  | cons _ hok hexec _ ih =>
    refine ⟨hok, fun s'' hs'' => ?_⟩
    rw [Except.ok.inj (hs''.symm.trans hexec)]
    exact ih hys

end

end X64Backend.Machine

namespace X64Backend.Alloc

open Asm Machine Dataflow List

/-- Where registers with slots are kept. The words of `Z` may differ between the states, and
code has to keep away from the hidden ones among them. What is kept depends on the frame
pointer, the registers with slots and the words of `Z` only. -/
structure Keeping where
  slots : Slots
  loc : Nat → Operand
  Z : Int64 → Prop
  Hidden : Int64 → Prop
  Own : State → State → Prop
  abstract {n : Name} {k : Nat} (h : slots[n]? = some k) : Reg.ofName n = .abstract n
  loc_ne {k : Nat} {c : Const} : loc k ≠ .const c
  hidden {a : Int64} (h : Hidden a) : Z a
  apart {img : Image} {t : State} {m : Mem} {a : Int64} {k : Nat} (hm : m ∈ (loc k).words)
    (ha : img.address t m = .ok a) : ¬ Hidden a
  value {s t : State} {n : Name} {k : Nat} (img : Image) (h : Own s t) (hn : slots[n]? = some k) :
    img.value t (loc k) = .ok (s.get (.abstract n))
  assign {s t : State} {n : Name} {k : Nat} (img : Image) (h : Own s t) (hn : slots[n]? = some k)
    (v : Int64) : ∃ t', img.assign t (loc k) v = .ok t' ∧ Own (s.set (.abstract n) v) t' ∧
      SameWorld Z t t' ∧ t.left = t'.left ∧ t.right = t'.right ∧
      ∀ r : Reg, slots[r.name]? = none → t'.get r = t.get r
  congr {s s' t t' : State} (h : Own s t)
    (hs : ∀ n k, slots[n]? = some k → s'.get (.abstract n) = s.get (.abstract n))
    (ht : ∀ r : Reg, r = .rbp ∨ slots[r.name]? ≠ none → t'.get r = t.get r)
    (hm : ∀ a, Z a → t'.memory.read a = t.memory.read a) : Own s' t'

namespace Keeping

/-- A state in which registers are kept elsewhere, beside one in which they are registers. Of
the registers without a slot those of `T` are the same. -/
structure Holds (K : Keeping) (T : Reg → Prop) (s t : State) : Prop where
  own : K.Own s t
  reg {r : Reg} (hr : T r) (h : K.slots[r.name]? = none) : t.get r = s.get r
  world : SameWorld K.Z s t
  left : s.left = t.left
  right : s.right = t.right

variable {K : Keeping} {T T' U : Reg → Prop} {fs : Fetches} {img img' : Image} {s t : State}
  {a b d e : Operand} {r q : Reg} {n : Name} {k : Nat}

theorem free_machine (K : Keeping) (p : MachineReg) : K.slots[(Reg.machine p).name]? = none := by
  grind [Reg.ofName_machine, K.abstract]

theorem eq_abstract (hr : r.Proper) (h : K.slots[r.name]? = some k) : r = .abstract r.name :=
  hr.symm.trans (K.abstract h)

namespace Holds

variable (h : K.Holds T s t)

include h

theorem mono (hT : ∀ r, T' r → T r) : K.Holds T' s t :=
  ⟨h.own, fun hr => h.reg (hT _ hr), h.world, h.left, h.right⟩

/-- Positions do not matter. -/
theorem moved (i j : Int) (m n : Nat) : K.Holds T (s.moved i m) (t.moved j n) :=
  ⟨K.congr h.own (fun _ _ _ => rfl) (fun _ _ => rfl) fun _ _ => rfl, h.reg,
    ⟨h.world.memory, h.world.heap, h.world.output⟩, h.left, h.right⟩

theorem advance : K.Holds T s.advance t.advance := h.moved _ _ _ _

theorem advance_left : K.Holds T s.advance t := h.moved _ _ _ _

theorem advance_right : K.Holds T s t.advance := h.moved _ _ _ _

theorem compare (l r : Int64) :
    K.Holds T { s with left := l, right := r } { t with left := l, right := r } :=
  ⟨K.congr h.own (fun _ _ _ => rfl) (fun _ _ => rfl) fun _ _ => rfl, h.reg,
    ⟨h.world.memory, h.world.heap, h.world.output⟩, rfl, rfl⟩

/-- A register without a slot is set on both sides. -/
theorem set (hd : K.slots[q.name]? = none) (hrbp : q ≠ .rbp) (v : Int64)
    (hT : ∀ r, T' r → r ≠ q → T r) : K.Holds T' (s.set q v) (t.set q v) where
  own := by
    refine K.congr h.own (fun n k hn => State.get_set_of_ne s v ?_)
      (fun r hr => State.get_set_of_ne t v ?_) fun _ _ => rfl
    · rintro rfl
      exact nomatch hd.symm.trans hn
    · rintro rfl
      exact hr.elim hrbp fun h => h hd
  reg {r} hr hfree := by
    by_cases heq : q = r
    · subst heq
      rw [State.get_set_self, State.get_set_self]
    · grind [State.get_set_of_ne, h.reg]
  world := ⟨h.world.memory, h.world.heap, h.world.output⟩
  left := h.left
  right := h.right

/-- A register that nothing relies on is set on one side. -/
theorem set_right (hq : q ≠ .rbp ∧ K.slots[q.name]? = none) (v : Int64)
    (hT : ∀ r, T' r → r ≠ q ∧ T r) : K.Holds T' s (t.set q v) where
  own := by
    refine K.congr h.own (fun _ _ _ => rfl) (fun r hr => State.get_set_of_ne t v ?_) fun _ _ => rfl
    rintro rfl
    exact hr.elim hq.1 fun h => h hq.2
  reg {r} hr hfree := by
    obtain ⟨hne, hr⟩ := hT r hr
    rw [State.get_set_of_ne t v hne.symm]
    exact h.reg hr hfree
  world := ⟨h.world.memory, h.world.heap, h.world.output⟩
  left := h.left
  right := h.right

omit h

/-- A register with a slot is set, as a register and where it is kept. -/
theorem assign_slot (img : Image) (h : K.Holds T s t) (hn : K.slots[n]? = some k) (v : Int64)
    (hT : ∀ r, T' r → r ≠ .abstract n → T r) :
    ∃ t', img.assign t (K.loc k) v = .ok t' ∧ K.Holds T' (s.set (.abstract n) v) t' := by
  obtain ⟨t', hassign, hown, hworld, hleft, hright, hregs⟩ := K.assign img h.own hn v
  refine ⟨t', hassign, hown, fun {r} hr hfree => ?_, ?_, h.left.trans hleft, h.right.trans hright⟩
  · have hne : r ≠ .abstract n := by
      rintro rfl
      exact nomatch hfree.symm.trans hn
    rw [hregs r hfree, State.get_set_of_ne s v hne.symm]
    exact h.reg (hT r hr hne) hfree
  · exact SameWorld.trans ⟨h.world.memory, h.world.heap, h.world.output⟩ hworld

include h in
/-- A word that is the same for both codes is written on both sides. -/
theorem write {a : Int64} (ha : ¬ K.Z a) (v : Int64) :
    K.Holds T { s with memory := s.memory.write a v } { t with memory := t.memory.write a v } where
  own := by
    refine K.congr h.own (fun _ _ _ => rfl) (fun _ _ => rfl) fun b hb => ?_
    have hne : a ≠ b := fun heq => ha (heq ▸ hb)
    rw [Memory.read_write, if_neg hne]
  reg := h.reg
  world := h.world.write a v
  left := h.left
  right := h.right

/-- A register that is set twice holds the last word. -/
theorem set_twice {v w : Int64} (h : K.Holds T (s.set q w) t) :
    K.Holds T ((s.set q v).set q w) t := by
  have hget : ∀ r, ((s.set q v).set q w).get r = (s.set q w).get r := by
    intro r
    by_cases heq : q = r
    · subst heq
      rw [State.get_set_self, State.get_set_self]
    · rw [State.get_set_of_ne _ w heq, State.get_set_of_ne _ w heq, State.get_set_of_ne s v heq]
  refine ⟨K.congr h.own (fun n k _ => hget _) (fun _ _ => rfl) fun _ _ => rfl, fun hr hfree => ?_,
    ⟨h.world.memory, h.world.heap, h.world.output⟩, h.left, h.right⟩
  rw [hget]
  exact h.reg hr hfree

end Holds

/-! ## Reading -/

/-- The registers that were fetched hold what their slots hold. -/
def Fetched (K : Keeping) (fs : Fetches) (s t : State) : Prop :=
  ∀ p ∈ fs, ∀ n : Name, K.slots[n]? = some p.2 → t.get p.1 = s.get (.abstract n)

/-- A register can be read: from its slot, or because it is one of `T`. -/
structure Trusts (K : Keeping) (T : Reg → Prop) (r : Reg) : Prop where
  proper : r.Proper
  trusted (h : K.slots[r.name]? = none) : T r

/-- Registers to go through hold nothing. -/
def Spare (K : Keeping) (U : Reg → Prop) : Prop :=
  ∀ r, U r → r ≠ .rbp ∧ K.slots[r.name]? = none

theorem Fetched.advance (h : K.Fetched fs s t) : K.Fetched fs s.advance t.advance := h

/-- An instruction keeps away from the hidden words if its words are those of a slot. -/
theorem apart_of_loc {x : Instr} (hwords : x.words = (K.loc k).words)
    (hstack : usesStack x = false) : Apart K.Hidden img t x :=
  ⟨fun _ hm _ ha => K.apart (hwords ▸ hm) ha, fun h => nomatch hstack.symm.trans h⟩

/-- Loads fetch what the slots hold, and change no other registers. -/
theorem fetches_run {rs : List Reg} (img : Image) (hf : Fetching K.slots U rs fs) (hU : K.Spare U)
    (h : K.Holds T s t) (hT : ∀ r, T' r → T r ∧ ¬ U r) :
    ∃ t', Seq img (Apart K.Hidden img) (fs.code K.loc) t t' ∧ K.Holds T' s t' ∧
      K.Fetched fs s t' ∧ ∀ r, (∀ p ∈ fs, r ≠ p.1) → t'.get r = t.get r := by
  induction fs generalizing T t with
  | nil => exact ⟨t, .nil t, h.mono fun r hr => (hT r hr).1, nofun, fun _ _ => rfl⟩
  | cons p fs ih =>
    obtain ⟨q, k⟩ := p
    obtain ⟨hq, hscratch⟩ := forall_mem_cons.mp hf.scratch
    obtain ⟨⟨m, _, hn⟩, hslot⟩ := forall_mem_cons.mp hf.slot
    obtain ⟨hfresh, hnodup⟩ := nodup_cons.mp hf.nodup
    generalize m.name = n at hn
    have hload : img.exec t.advance (.mov (.reg q) (K.loc k)) =
        .ok (t.advance.set q (s.get (.abstract n))) := by
      simp only [Image.exec, K.value img h.advance_right.own hn, Outcome.use, Image.assign,
        Outcome.orElse]
    obtain ⟨t', hseq, hholds, hfetched, hget⟩ := ih ⟨hscratch, hslot, hnodup⟩
      (h.advance_right.set_right (hU q hq) (s.get (.abstract n)) fun r hr => hr)
      (fun r hr => ⟨⟨fun heq => (hT r hr).2 (heq ▸ hq), (hT r hr).1⟩, (hT r hr).2⟩)
    have hq' : t'.get q = s.get (.abstract n) := by
      grind [State.get_set_self]
    refine ⟨t', .cons rfl (apart_of_loc rfl rfl) hload hseq, hholds, ?_, fun r hr => ?_⟩
    · refine forall_mem_cons.mpr ⟨fun m hm => ?_, hfetched⟩
      rw [hq']
      exact Except.ok.inj ((K.value img h.own hn).symm.trans (K.value img h.own hm))
    · obtain ⟨hne, hrest⟩ := forall_mem_cons.mp hr
      rw [hget r hrest, State.get_set_of_ne _ _ hne.symm, State.get_advance]

theorem get_of_carried (h : Carried K.slots fs r q) (hag : K.Holds T s t)
    (hf : K.Fetched fs s t) (hr : K.Trusts T r) : t.get q = s.get r := by
  cases h with
  | kept h => exact hag.reg (hr.trusted h) h
  | fetched h hq => rw [hf _ hq _ h, ← eq_abstract hr.proper h]

theorem address_of_carried {m n : Mem} (h : CarriedMem K.slots fs m n) (hag : K.Holds T s t)
    (hf : K.Fetched fs s t) (hm : ∀ r ∈ m.regs, K.Trusts T r)
    (hsym : SameSymbols img img' m.disp.symbols) : img'.address t n = img.address s m := by
  have hbase : baseWord t n.base = baseWord s m.base := by
    obtain ⟨base, index, disp⟩ := m
    obtain ⟨base', index', disp'⟩ := n
    cases h.base with
    | none | rip => rfl
    | @reg r q hr hq hc =>
      have hword : ∀ {u : State} {p : Reg}, p ≠ .rip → baseWord u (some p) = u.get p := by
        intro u p hp
        cases p with
        | rip => exact absurd rfl hp
        | _ => rfl
      show baseWord t (some q) = baseWord s (some r)
      rw [hword hq, hword hr]
      refine get_of_carried hc hag hf (hm r ?_)
      cases r with
      | rip => exact absurd rfl hr
      | _ => exact mem_cons_self
  have hindex : indexWord t n.index = indexWord s m.index := by
    obtain ⟨base, index, disp⟩ := m
    obtain ⟨base', index', disp'⟩ := n
    cases h.index with
    | none => rfl
    | @reg r q scale hc =>
      have hmem : r ∈ Mem.regs ⟨base, some (r, scale), disp⟩ := by simp [Mem.regs]
      show t.get q * scale = s.get r * scale
      rw [get_of_carried hc hag hf (hm r hmem)]
  rw [address_eq, address_eq, hbase, hindex, h.disp, hsym.const]

theorem value_of_readAs (h : ReadAs K.loc K.slots fs a b) (hag : K.Holds T s t)
    (hf : K.Fetched fs s t) (ha : ∀ r ∈ a.regs, K.Trusts T r)
    (hsym : SameSymbols img img' a.symbols)
    (hapart : ∀ m ∈ a.words, ∀ c, img.address s m = .ok c → ¬ K.Z c) :
    img.value s a = img'.value t b := by
  cases h with
  | reg h => exact congrArg Except.ok (get_of_carried h hag hf (ha _ mem_cons_self)).symm
  | slot h =>
    rw [K.value img' hag.own h, ← eq_abstract (ha _ mem_cons_self).proper h]
    rfl
  | mem h =>
    exact value_mem_eq (address_of_carried h hag hf ha hsym).symm hag.world
      (hapart _ mem_cons_self)
  | const c => exact hsym.const.symm
  | absent => rfl

/-! ## Writing -/

/-- What is left once the code behind an instruction has run. -/
def After (K : Keeping) (img' : Image) (T : Reg → Prop) (store : List Instr) (s t : State) : Prop :=
  ∃ t', Seq img' (Apart K.Hidden img') store t t' ∧ K.Holds T s t'

theorem After.nil (h : K.Holds T s t) : K.After img' T [] s t := ⟨t, .nil t, h⟩

/-- A register goes into the slot of another one. -/
theorem After.store {v : Int64} (hn : K.slots[n]? = some k) (h : K.Holds T s t) (hq : t.get q = v)
    (hT : ∀ r, T' r → r ≠ .abstract n → T r) :
    K.After img' T' [.mov (K.loc k) (.reg q)] (s.set (.abstract n) v) t := by
  obtain ⟨t', hassign, hholds⟩ := h.advance_right.assign_slot img' hn v hT
  refine ⟨t', .single rfl (apart_of_loc (append_nil _) rfl) ?_, hholds⟩
  simp only [Image.exec, Image.value, State.get_advance, hq, Outcome.use, hassign, Outcome.orElse]

section

variable {dst out : Reg} {store : List Instr}

theorem After.of_writtenAs (h : WrittenAs K.loc K.slots U dst out store)
    (hd : dst.Proper ∧ dst ≠ .rbp) (hU : K.Spare U) (hag : K.Holds T s t) (v : Int64)
    (hT : ∀ r, T' r → ¬ U r ∧ (r ≠ dst → T r)) :
    K.After img' T' store (s.set dst v) (t.set out v) := by
  cases h with
  | kept h => exact .nil (hag.set h hd.2 v fun r hr => (hT r hr).2)
  | stored h hq =>
    have hag' : K.Holds (fun r => r ≠ out ∧ T r) s (t.set out v) :=
      hag.set_right (hU out hq) v fun r hr => hr
    rw [eq_abstract hd.1 h] at hT ⊢
    exact .store h hag' (State.get_set_self t out v) fun r hr hrd =>
      ⟨fun heq => (hT r hr).1 (heq ▸ hq), (hT r hr).2 hrd⟩

/-- The register was set to another word before. -/
theorem After.of_writtenAs_twice (h : WrittenAs K.loc K.slots U dst out store)
    (hd : dst.Proper ∧ dst ≠ .rbp) (hU : K.Spare U) (hag : K.Holds T s t) (v w : Int64)
    (hT : ∀ r, T' r → ¬ U r ∧ (r ≠ dst → T r)) :
    K.After img' T' store ((s.set dst w).set dst v) ((t.set out w).set out v) := by
  have hout : (out ≠ .rbp ∧ K.slots[out.name]? = none) ∧ ∀ r, ¬ U r → r ≠ dst → r ≠ out := by
    cases h with
    | kept h => exact ⟨⟨hd.2, h⟩, fun r _ hr => hr⟩
    | stored h hq => exact ⟨hU out hq, fun r hr _ heq => hr (heq ▸ hq)⟩
  have hag' : K.Holds (fun r => r ≠ out ∧ T r) s (t.set out w) :=
    hag.set_right hout.1 w fun r hr => hr
  have hafter : K.After img' T' store (s.set dst v) ((t.set out w).set out v) :=
    .of_writtenAs h hd hU hag' v fun r hr =>
      ⟨(hT r hr).1, fun hrd => ⟨hout.2 r (hT r hr).1 hrd, (hT r hr).2 hrd⟩⟩
  obtain ⟨t', hseq, hholds⟩ := hafter
  exact ⟨t', hseq, hholds.set_twice⟩

end

/-- What is written in place. -/
theorem assign_of_placedAs (h : PlacedAs K.loc K.slots fs d e) (hag : K.Holds T s t)
    (hf : K.Fetched fs s t) (hd : ∀ r ∈ d.indirect, K.Trusts T r)
    (htarget : ∀ r ∈ d.target, r.Proper ∧ r ≠ .rbp) (hsym : SameSymbols img img' d.symbols)
    (hapart : ∀ m ∈ d.words, ∀ c, img.address s m = .ok c → ¬ K.Z c)
    (hT : ∀ r, T' r → r ∉ d.target → T r) (v : Int64) :
    Lands (K.After img' T' []) (img.assign s d v) (img'.assign t e v) := by
  cases h with
  | @reg r h =>
    have hr := htarget r mem_cons_self
    exact .ok (.nil (hag.set h hr.2 v fun q hq hne => hT q hq (by simpa [Operand.target] using hne)))
  | @slot r k h =>
    have hr := htarget r mem_cons_self
    have heq := eq_abstract hr.1 h
    rw [heq] at hT ⊢
    obtain ⟨t', hassign, hholds⟩ := hag.assign_slot img' h v fun q hq hne =>
      hT q hq (by simpa [Operand.target] using hne)
    rw [hassign]
    exact .ok (.nil hholds)
  | mem h =>
    refine Lands.assign_mem (address_of_carried h hag hf hd hsym).symm fun a ha => ?_
    refine .nil ((hag.write (hapart _ mem_cons_self a ha) v).mono fun r hr => ?_)
    exact hT r hr not_mem_nil
  | const c | absent => exact .error _

/-! ## Instructions -/

/-- An instruction can be executed with registers kept elsewhere. It reads registers that can be
read, leaves the frame pointer and the words of `Z` alone, and its symbols have the same values
for both codes. Behind it registers of `T'` are relied on. -/
structure Suits (K : Keeping) (U T T' : Reg → Prop) (img img' : Image) (s : State) (x : Instr) :
    Prop where
  read : ∀ r ∈ uses x, K.Trusts T r
  write : ∀ r ∈ defs x, r.Proper ∧ r ≠ .rbp
  symbols : SameSymbols img img' x.symbols
  apart : Apart K.Z img s x
  keep : ∀ r, T' r → ¬ U r ∧ (r ∉ defs x → T r)

theorem get_of_updatedAs {dst out : Reg} {store : List Instr}
    (h : UpdatedAs K.loc K.slots fs dst out store) (hag : K.Holds T s t) (hf : K.Fetched fs s t)
    (hd : K.Trusts T dst) : s.get dst = t.get out := by
  cases h with
  | kept h => exact (hag.reg (hd.trusted h) h).symm
  | stored h hq => exact (get_of_carried (.fetched h hq) hag hf hd).symm

section

variable {x y : Instr} {store block : List Instr} {rs : List Reg}

/-- The instruction behind the fetches does what the instruction does that it stands for. -/
theorem matches_of_core (h : Core K.loc K.slots U fs x y store) (hx : falls x = true)
    (hU : K.Spare U) (hfs : Fetching K.slots U rs fs) (hag : K.Holds T s t)
    (hf : K.Fetched fs s t) (hs : K.Suits U T T' img img' s x) :
    Matches img img' s t (K.After img' T' store) x y := by
  -- Reading and writing, once for all forms.
  have hread : ∀ {a b : Operand}, ReadAs K.loc K.slots fs a b → (∀ r ∈ a.regs, r ∈ uses x) →
      SameSymbols img img' a.symbols → (∀ m ∈ a.words, m ∈ x.words) →
      img.value s a = img'.value t b := by
    grind [value_of_readAs, hs.read, hs.apart.words]
  have hplace : ∀ {d e : Operand}, PlacedAs K.loc K.slots fs d e →
      (∀ r ∈ d.indirect, r ∈ uses x) → d.target = defs x → SameSymbols img img' d.symbols →
      (∀ m ∈ d.words, m ∈ x.words) →
      ∀ v, Lands (K.After img' T' []) (img.assign s d v) (img'.assign t e v) := by
    intro d e hde hregs htarget hsym hwords v
    refine assign_of_placedAs hde hag hf (fun r hr => hs.read r (hregs r hr)) ?_ hsym
      (fun m hm => hs.apart.words m (hwords m hm)) (fun r hr hne => (hs.keep r hr).2 ?_) v
    · rw [htarget]
      exact hs.write
    · rwa [← htarget]
  have hset : ∀ {d e : Reg}, WrittenAs K.loc K.slots U d e store → defs x = [d] →
      ∀ v, K.After img' T' store (s.set d v) (t.set e v) := by
    intro d e hde hdefs v
    refine .of_writtenAs hde (hs.write d (by rw [hdefs]; exact mem_cons_self)) hU hag v
      fun r hr => ⟨(hs.keep r hr).1, fun hne => (hs.keep r hr).2 ?_⟩
    rw [hdefs, mem_singleton]
    exact hne
  have hmachine : ∀ {p : MachineReg}, .machine p ∈ uses x →
      t.get (.machine p) = s.get (.machine p) := fun hp =>
    hag.reg ((hs.read _ hp).trusted (K.free_machine _)) (K.free_machine _)
  cases h with
  | movAbs h => exact .movAbs (hset h rfl _)
  | mov hd ha =>
    have hsym := hs.symbols
    exact .mov (hread ha (by simp +contextual) hsym.right (by simp +contextual [Instr.words]))
      fun v _ => hplace hd (by simp +contextual) (defs_mov _ _).symm hsym.left
        (by simp +contextual [Instr.words]) v
  | movReg h ha =>
    exact .mov (hread ha (by simp +contextual) hs.symbols.right
      (by simp +contextual [Instr.words])) fun v _ => .ok (hset h (defs_mov _ _) v)
  | lea h hm =>
    refine .lea (address_of_carried hm hag hf ?_ hs.symbols).symm (hset h (defs_lea _ _))
    intro r hr
    exact hs.read r (by simpa using hr)
  | cmp ha hc =>
    have hsym := hs.symbols
    refine .cmp (hread ha (by simp +contextual) hsym.left (by simp +contextual [Instr.words]))
      (hread hc (by simp +contextual) hsym.right (by simp +contextual [Instr.words])) fun l r => ?_
    exact .nil ((hag.compare l r).mono fun r hr => (hs.keep r hr).2 (by simp))
  | @set c d e _ h =>
    refine .set (hset h rfl 0) (.of_writtenAs_twice h (hs.write d (by simp)) hU hag 1 0 ?_)
    exact fun r hr => ⟨(hs.keep r hr).1, fun hne => (hs.keep r hr).2 (by simpa using hne)⟩
  | call _ => cases hx
  | arith hd ha =>
    have hsym := hs.symbols
    exact .arith (hread hd.readAs (by simp +contextual) hsym.left
      (by simp +contextual [Instr.words]))
      (hread ha (by simp +contextual) hsym.right (by simp +contextual [Instr.words]))
      (hplace hd (fun r hr => by simp [Operand.mem_regs_of_indirect hr]) (defs_arith _ _ _).symm
        hsym.left (by simp +contextual [Instr.words]))
  | @arithReg op d e a b _ h ha =>
    have hd : s.get d = t.get e := get_of_updatedAs h hag hf (hs.read d (by simp [Operand.regs]))
    exact .arith (congrArg Except.ok hd)
      (hread ha (by simp +contextual) hs.symbols.right (by simp +contextual [Instr.words]))
      fun v => .ok (hset (h.writtenAs hfs) (defs_arith _ _ _) v)
  | @imul d e a b _ h ha =>
    have hd : s.get d = t.get e := get_of_updatedAs h hag hf (hs.read d (by simp))
    exact .imul hd (hread ha (by simp +contextual) hs.symbols (by simp [Instr.words]))
      (hset (h.writtenAs hfs) (defs_imul _ _))
  | imul3 h ha =>
    exact .imul3 (hread ha (by simp) hs.symbols (by simp [Instr.words])) (hset h (defs_imul3 _ _ _))
  | idiv ha =>
    refine .idiv (hread ha (by simp +contextual) hs.symbols (by simp [Instr.words]))
      (hmachine (by simp)).symm fun q r => .nil ?_
    have hrax : K.Holds (fun r => r = .rax ∨ T r) (s.set .rax q) (t.set .rax q) :=
      hag.set (K.free_machine .rax) (by decide) q fun r hr hne => hr.resolve_left hne
    refine hrax.set (K.free_machine .rdx) (by decide) r fun p hp hne => ?_
    by_cases heq : p = .rax
    · exact .inl heq
    · exact .inr ((hs.keep p hp).2 (by simp [heq, hne]))
  | neg hd =>
    exact .neg (hread hd.readAs (by simp) hs.symbols (by simp [Instr.words]))
      (hplace hd (fun r hr => by simp [Operand.mem_regs_of_indirect hr]) (defs_neg _).symm
        hs.symbols (by simp [Instr.words]))
  | shl hd =>
    exact .shl (hread hd.readAs (by simp) hs.symbols (by simp [Instr.words]))
      (hplace hd (fun r hr => by simp [Operand.mem_regs_of_indirect hr]) (defs_shl _ _).symm
        hs.symbols (by simp [Instr.words]))
  | push ha =>
    refine .push (hread ha (by simp +contextual) hs.symbols (by simp [Instr.words]))
      (hmachine (by simp)).symm fun v => .nil ?_
    refine (hag.set (K.free_machine .rsp) (by decide) _ fun r hr hne => ?_).write
      (hs.apart.stack rfl) v
    exact (hs.keep r hr).2 (by simpa using hne)
  | bare hbare =>
    have hstay : defs x = [] → K.After img' T' [] s t := fun hdefs =>
      .nil (hag.mono fun r hr => (hs.keep r hr).2 (by simp [hdefs]))
    cases x with
    | cqo =>
      refine .cqo (hmachine (by simp)).symm fun v => .nil ?_
      refine hag.set (K.free_machine .rdx) (by decide) v fun r hr hne => ?_
      exact (hs.keep r hr).2 (by simpa using hne)
    | label l => exact .label (hstay rfl)
    | comment text => exact .comment (hstay rfl)
    | absent => exact .absent
    | popRbp => exact absurd rfl (hs.write .rbp (show Reg.rbp ∈ [Reg.rsp, .rbp] by simp)).2
    | jump c l | ret => cases hx
    | _ => cases hbare

variable {shared : Reg → Prop}

theorem related_core (h : Core K.loc K.slots U fs x y store) (hx : falls x = true)
    (hU : K.Spare U) (hfs : Fetching K.slots U rs fs) (hag : K.Holds T s t)
    (hf : K.Fetched fs s t) (hs : K.Suits U T T' img img' s x) :
    Outcome.Related (K.Holds T') (SameEnd K.Z shared) (img.exec s x)
      (img'.exec t y >>= img'.execAll store) := by
  have hexec : Outcome.Related (K.After img' T' store) (SameEnd K.Z shared) (img.exec s x)
      (img'.exec t y) :=
    (matches_of_core h hx hU hfs hag hf hs).exec (steady_sameWorld K.Z) (fun h => ⟨rfl, h⟩)
      hag.world hag.left hag.right
  generalize img.exec s x = o at hexec
  generalize img'.exec t y = o' at hexec
  cases hexec with
  | ok h =>
    obtain ⟨t', hseq, hholds⟩ := h
    show Outcome.Related _ _ _ (img'.execAll store _)
    rw [hseq.execAll_eq]
    exact .ok hholds
  | error h => exact .error h

theorem related_relayed {op : Arith} {dst : Reg} (hk : K.slots[dst.name]? = some k) (hq : U q)
    (ha : ReadAs K.loc K.slots fs a b) (hU : K.Spare U) (hag : K.Holds T s t)
    (hf : K.Fetched fs s t) (hs : K.Suits U T T' img img' s (.arith op (.reg dst) a)) :
    Outcome.Related (K.Holds T') (SameEnd K.Z shared) (img.exec s (.arith op (.reg dst) a))
      (img'.exec t (.mov (.reg q) b) >>= img'.execAll [.arith op (K.loc k) (.reg q)]) := by
  have hproper : dst.Proper := (hs.write dst (by simp [Operand.target])).1
  have hsame : img.value s a = img'.value t b :=
    value_of_readAs ha hag hf (fun r hr => hs.read r (by simp [hr])) hs.symbols.right
      fun m hm => hs.apart.words m (by simp [Instr.words, hm])
  simp only [Image.exec, ← hsame]
  cases hv : img.value s a with
  | error e =>
    rw [update_reg_error hv]
    exact .error ⟨rfl, hag.world⟩
  | ok v =>
    have hag' : K.Holds (fun r => r ≠ q ∧ T r) s (t.set q v).advance :=
      (hag.set_right (hU q hq) v fun r hr => hr).advance_right
    have hdst : img.value s (.reg dst) = img'.value (t.set q v).advance (K.loc k) := by
      rw [K.value img' hag'.own hk, ← eq_abstract hproper hk]
      rfl
    have hsrc : img.value s a = img'.value (t.set q v).advance (.reg q) := by
      rw [hv]
      exact congrArg Except.ok (State.get_set_self t q v).symm
    show Outcome.Related _ _ _ (img'.execAll _ (t.set q v))
    rw [Image.execAll_singleton, Image.exec]
    refine Image.update_related hdst hsrc (fun _ => ⟨rfl, hag'.world⟩) fun w => ?_
    have hkeep := hs.keep
    simp only [defs_arith, Operand.target, mem_singleton] at hkeep
    rw [eq_abstract hproper hk] at hkeep ⊢
    obtain ⟨t', hassign, hholds⟩ := hag'.assign_slot img' hk w fun r hr hrd =>
      ⟨fun heq => (hkeep r hr).1 (heq ▸ hq), (hkeep r hr).2 hrd⟩
    rw [hassign]
    exact .ok hholds

/-- What an instruction may read behind the fetches. -/
theorem Suits.without (hs : K.Suits U T T' img img' s x) (hread : ∀ r, U r → r ∉ uses x) :
    K.Suits U (fun r => T r ∧ ¬ U r) T' img img' s x := by
  refine ⟨fun r hr => ?_, hs.write, hs.symbols, hs.apart, fun r hr => ?_⟩
  · obtain ⟨hproper, htrusted⟩ := hs.read r hr
    exact ⟨hproper, fun h => ⟨htrusted h, fun hUr => hread r hUr hr⟩⟩
  · obtain ⟨hfree, hkeep⟩ := hs.keep r hr
    exact ⟨hfree, fun h => ⟨hkeep h, hfree⟩⟩

/-! ## Words that code keeps away from -/

theorem words_of_readAs {loc : Nat → Operand} {slots : Slots} (h : ReadAs loc slots fs a b) :
    ∀ m ∈ b.words, (∃ m' ∈ a.words, CarriedMem slots fs m' m) ∨ ∃ k, m ∈ (loc k).words := by
  intro m hm
  cases h with
  | reg _ | const c | absent => cases hm
  | slot _ => exact .inr ⟨_, hm⟩
  | mem h =>
    rw [mem_singleton.mp hm]
    exact .inl ⟨_, mem_cons_self, h⟩

/-- The words of memory that an instruction behind fetches names are those of the instruction
that it stands for, or those of slots. -/
theorem words_of_core {loc : Nat → Operand} {slots : Slots} (h : Core loc slots U fs x y store) :
    ∀ m ∈ y.words, (∃ m' ∈ x.words, CarriedMem slots fs m' m) ∨ ∃ k, m ∈ (loc k).words := by
  have hpair : ∀ {a b c d : Operand}, ReadAs loc slots fs a b → ReadAs loc slots fs c d →
      ∀ m ∈ b.words ++ d.words, (∃ m' ∈ a.words ++ c.words, CarriedMem slots fs m' m) ∨
        ∃ k, m ∈ (loc k).words := by
    intro a b c d hab hcd m hm
    rcases mem_append.mp hm with hm | hm
    · grind [words_of_readAs, mem_append_left]
    · grind [words_of_readAs, mem_append_right]
  cases h with
  | mov hd ha | arith hd ha => exact hpair hd.readAs ha
  | movReg h ha | arithReg h ha | call ha | idiv ha | push ha | imul h ha | imul3 h ha =>
    exact words_of_readAs ha
  | cmp ha hc => exact hpair ha hc
  | neg hd | shl hd => exact words_of_readAs hd.readAs
  | bare hbare =>
    cases x with
    | jump | ret | cqo | popRbp | label | comment | absent => exact fun _ => nofun
    | _ => cases hbare
  | _ => exact fun _ => nofun

theorem symbols_subset {m : Mem} (hm : m ∈ x.words) : m.disp.symbols ⊆ x.symbols := by
  have hop : ∀ {a : Operand}, m ∈ a.words → m.disp.symbols ⊆ a.symbols := by
    intro a ha
    cases a with
    | mem n =>
      rw [mem_singleton.mp ha]
      exact List.Subset.refl _
    | _ => cases ha
  have hpair : ∀ {a b : Operand}, m ∈ a.words ++ b.words → m.disp.symbols ⊆ a.symbols ++ b.symbols :=
    fun h => (mem_append.mp h).elim (fun h => List.Subset.trans (hop h) (subset_append_left _ _))
      fun h => List.Subset.trans (hop h) (subset_append_right _ _)
  cases x with
  | mov a b | cmp a b | arith op a b => exact hpair hm
  | call a =>
    cases a with
    | mem n => exact hop (a := .mem n) hm
    | _ => cases hm
  | imul d a | imul3 d a k | idiv a | neg a | shl a k | push a => exact hop hm
  | _ => cases hm

section

variable (hag : K.Holds T s t) (hf : K.Fetched fs s t) (hs : K.Suits U T T' img img' s x)

include hag hf hs

/-- Where an instruction keeps away from the words of `Z`, what stands for it keeps away from
the hidden ones. -/
theorem apart_of_words (hstack : usesStack y = true → usesStack x = true)
    (hwords : ∀ m ∈ y.words, (∃ m' ∈ x.words, CarriedMem K.slots fs m' m) ∨
      ∃ k, m ∈ (K.loc k).words) : Apart K.Hidden img' t y := by
  refine ⟨fun m hm a ha hhidden => ?_, fun hy hhidden => ?_⟩
  · rcases hwords m hm with ⟨m', hm', hcarried⟩ | ⟨k, hk⟩
    · refine hs.apart.words m' hm' a ?_ (K.hidden hhidden)
      rw [← address_of_carried hcarried hag hf (fun r hr => hs.read r (regs_subset_uses hm' hr))
        fun k hk => hs.symbols k (symbols_subset hm' hk)]
      exact ha
    · exact K.apart hk ha hhidden
  · have hrsp : .rsp ∈ uses x := by
      have hx := hstack hy
      cases x with
      | push a => simp
      | popRbp => exact mem_cons_self
      | _ => cases hx
    rw [hag.reg ((hs.read _ hrsp).trusted (K.free_machine _)) (K.free_machine _)] at hhidden
    exact hs.apart.stack (hstack hy) (K.hidden hhidden)

end

/-- Code that stands for an instruction does what the instruction does, and keeps away from the
hidden words. -/
theorem run_block (h : Block K.loc K.slots U x block) (hx : falls x = true) (hU : K.Spare U)
    (hag : K.Holds T s t) (hread : ∀ r, U r → r ∉ uses x)
    (hs : K.Suits U T T' img img' s.advance x) :
    Outcome.Related (K.Holds T') (SameEnd K.Z shared) (img.exec s.advance x)
      (img'.execAll block t) ∧ img'.Clears (Apart K.Hidden img') block t := by
  have hs' := hs.without hread
  cases h with
  | @around fs _ y store hfs hcore =>
    obtain ⟨t', hseq, hholds, hfetched, _⟩ := fetches_run img' hfs hU hag fun r hr => hr
    rw [hseq.execAll_append]
    refine ⟨related_core hcore hx hU hfs hholds.advance hfetched.advance hs', ?_⟩
    have hstack : usesStack y = usesStack x := by cases hcore <;> rfl
    have hy := apart_of_words hholds.advance hfetched.advance hs' (fun h => hstack ▸ h)
      (words_of_core hcore)
    refine hseq.clears_append ⟨⟨hy.words, hy.stack⟩, fun t'' _ => ?_⟩
    rcases hcore.store_cases with rfl | ⟨k, q, rfl⟩
    · trivial
    · exact ⟨apart_of_loc (append_nil _) rfl, fun _ _ => trivial⟩
  | @relayed fs op d q a b k hfs hd hq ha hb =>
    obtain ⟨t', hseq, hholds, hfetched, _⟩ := fetches_run img' hfs hU hag fun r hr => hr
    rw [hseq.execAll_append]
    refine ⟨related_relayed hd hq ha hU hholds.advance hfetched.advance hs', ?_⟩
    have hload : Apart K.Hidden img' t'.advance (.mov (.reg q) b) := by
      refine apart_of_words hholds.advance hfetched.advance hs' (absurd · Bool.false_ne_true) ?_
      exact words_of_readAs ha
    exact hseq.clears_append ⟨⟨hload.words, hload.stack⟩, fun t'' _ =>
      ⟨apart_of_loc (append_nil _) rfl, fun _ _ => trivial⟩⟩

theorem callee_of_readAs (h : ReadAs K.loc K.slots fs a b) (hag : K.Holds T s t)
    (hf : K.Fetched fs s t) (hs : K.Suits U T T' img img' s (.call a)) :
    img.callee s a = img'.callee t b := by
  have hvalue (hsym : SameSymbols img img' a.symbols) :
      Callee.address <$> img.value s a = Callee.address <$> img'.value t b := by
    rw [value_of_readAs h hag hf (fun r hr => hs.read r (by simp [hr])) hsym hs.apart.words]
  cases h with
  | reg _ | mem _ | absent => exact hvalue hs.symbols
  | @slot r k h =>
    refine (hvalue hs.symbols).trans ?_
    have hne := @K.loc_ne k
    generalize K.loc k = b at hne
    cases b with
    | const c => exact absurd rfl hne
    | _ => rfl
  | const c => cases c <;> rfl

end

end Keeping

end X64Backend.Alloc
