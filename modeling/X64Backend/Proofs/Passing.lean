import Mathlib.Data.List.Nodup
import X64Backend.Proofs.Machine.Stack
import X64Backend.Proofs.Meaning.Mirror

/-! # Passing arguments

The code of a call puts its arguments where the callee's first instructions look for them:
six in registers, the others on the stack above the return address. Operands of arguments
name no machine register, so they keep their values while arguments are put in place, unless
a word that they read is one of those pushed.
-/

namespace X64Backend.Select

open Asm Code Machine List

/-- The words of memory that an expression reads in a state. -/
def Setting.reads (S : Setting) (s : State) : Expr → List Int64
  | .mem a => (S.value s a).toList ++ S.reads s a
  | .binary _ l r => S.reads s l ++ S.reads s r
  | .const _ | .name _ | .temp _ | .absent => []

/-- Abstract registers are the same, and memory is outside a stretch. -/
structure Near (lo hi : Int) (s t : State) : Prop where
  regs (n : Name) : t.get (.abstract n) = s.get (.abstract n)
  memory (a : Int64) (ha : a.toInt < lo ∨ hi ≤ a.toInt) : t.memory.read a = s.memory.read a

/-- An operand whose value does not depend on machine registers and on a stretch of memory. -/
def Steady (img : Image) (lo hi : Int) (s : State) (a : Operand) (v : Int64) : Prop :=
  ∀ t, Near lo hi s t → img.value t a = .ok v

namespace Near

variable {lo hi : Int} {s t u : State}

theorem refl (s : State) : Near lo hi s s := ⟨fun _ => rfl, fun _ _ => rfl⟩

theorem trans (h : Near lo hi s t) (h' : Near lo hi t u) : Near lo hi s u :=
  ⟨fun n => (h'.regs n).trans (h.regs n), fun a ha => (h'.memory a ha).trans (h.memory a ha)⟩

theorem of_eq (hregs : ∀ n, t.get (.abstract n) = s.get (.abstract n))
    (hmemory : t.memory = s.memory) : Near lo hi s t :=
  ⟨hregs, fun _ _ => by rw [hmemory]⟩

theorem advance (s : State) : Near lo hi s s.advance := of_eq (fun _ => rfl) rfl

end Near

section

variable {img : Image} {lo hi : Int} {s t : State} {a : Operand} {v : Int64}

theorem Steady.near (h : Steady img lo hi s a v) (hnear : Near lo hi s t) :
    Steady img lo hi t a v :=
  fun u hu => h u (hnear.trans hu)

theorem steady_abstract (n : Name) : Steady img lo hi s (.reg (.abstract n)) (s.get (.abstract n)) :=
  fun t ht => by rw [Image.value, ht.regs n]

theorem steady_imm (c : Int64) : Steady img lo hi s (.imm c) c := fun _ _ => rfl

/-- Memory operands whose registers are abstract. -/
def AbstractMem (m : Mem) : Prop :=
  (∀ r ∈ m.base, r = .rip ∨ ∃ n, r = .abstract n) ∧ ∀ p ∈ m.index, ∃ n, p.1 = .abstract n

theorem AbstractMem.address_eq {m : Mem} (h : AbstractMem m)
    (hregs : ∀ n, t.get (.abstract n) = s.get (.abstract n)) :
    img.address t m = img.address s m := by
  have hbase : baseWord t m.base = baseWord s m.base := by
    cases hb : m.base with
    | none => rfl
    | some r =>
      rcases h.1 r hb with rfl | ⟨n, rfl⟩
      · rfl
      · exact hregs n
  have hindex : indexWord t m.index = indexWord s m.index := by
    cases hi : m.index with
    | none => rfl
    | some p =>
      obtain ⟨r, scale⟩ := p
      obtain ⟨n, hn⟩ := h.2 _ hi
      simp only at hn
      subst hn
      exact congrArg (· * scale) (hregs n)
  rw [Machine.address_eq, Machine.address_eq, hbase, hindex]

theorem steady_mem {m : Mem} {address : Int64} (hm : AbstractMem m)
    (haddress : img.address s m = .ok address) (hcheck : State.checkAddress address = .ok ())
    (hread : s.memory.read address = v) (hout : address.toInt < lo ∨ hi ≤ address.toInt) :
    Steady img lo hi s (.mem m) v := by
  intro t ht
  refine value_mem_eq_ok.mpr ⟨address, ?_, hcheck, ?_⟩
  · rw [hm.address_eq ht.regs, haddress]
  · rw [ht.memory address hout, hread]

end

section

variable {S : Setting} {own : Owner} {s s' : State} {e : Expr}
variable {lo hi : Int}

theorem Setting.Keeps.reads_eq {free : Expr → Prop} (h : S.Keeps own free s s')
    (he : TempNamed e) : S.reads s' e = S.reads s e := by
  induction e with
  | mem a ih => rw [Setting.reads, Setting.reads, ih he, h.value_eq (e := a) he]
  | binary op l r ihl ihr => rw [Setting.reads, Setting.reads, ihl he.1, ihr he.2]
  | _ => rfl

theorem IsAddress.abstractMem {m : Tile Mem} (h : IsAddress S.IsTile own e m) (he : TempNamed e) :
    AbstractMem m.result := by
  cases h with
  | symbol n _ => exact ⟨fun r hr => .inl (Option.some.inj hr).symm, fun p hp => nomatch hp⟩
  | @sum e b i d base index hsum hbase hindex =>
    obtain ⟨hb, hi⟩ := hsum.tempNamed he
    constructor
    · intro r hr
      cases hbase with
      | none => cases hr
      | @some x t ht =>
        obtain ⟨⟨n, hn, hresult⟩, _⟩ := ht (hb x rfl)
        have hne : Reg.abstract n ≠ .abstract [] := fun h => hn (Reg.abstract.inj h)
        simp only [Mem.baseOf, hresult, if_neg hne] at hr
        exact .inr ⟨n, (Option.some.inj hr).symm⟩
    · intro p hp
      cases hindex with
      | none => cases hp
      | @some x t ht =>
        cases hp
        cases ht with
        | temp n => exact ⟨n, (hi _ rfl : TempName n).ofName_eq⟩
        | @product l t c hl _ =>
          obtain ⟨⟨n, _, hresult⟩, _⟩ := hl (hi _ rfl : TempNamed (.binary _ _ _)).1
          exact ⟨n, hresult⟩

/-- An operand reads no word that is not used, wherever the abstract registers are as in a
state. -/
def Setting.Clear (S : Setting) (s : State) (a : Operand) : Prop :=
  ∀ t : State, (∀ n, t.get (.abstract n) = s.get (.abstract n)) → ∀ m ∈ a.words, ∀ c,
    S.img.address t m = .ok c → c < S.limit ∧ S.hidden c = false

theorem Setting.Clear.near {a : Operand} {t : State} (h : S.Clear s a) (hnear : Near lo hi s t) :
    S.Clear t a := fun u hu =>
  h u fun n => (hu n).trans (hnear.regs n)

/-- An operand of an expression is prepared so that it keeps the expression's value. -/
theorem Setting.operand_steady {t : Tile Operand} {v : Int64} (h : IsOperand S.IsTile own e t)
    (he : TempNamed e) (hv : S.value s e = some v)
    (hreads : ∀ a ∈ S.reads s e, a.toInt < lo ∨ hi ≤ a.toInt) :
    ∃ s₁, Seq S.img S.ok t.code s s₁ ∧ S.Keeps own (fun _ => False) s s₁ ∧
      ∀ s₂, S.Keeps own (fun _ => False) s₁ s₂ →
        Steady S.img lo hi s₂ t.result v ∧ S.Clear s₂ t.result := by
  cases h with
  | imm _ =>
    cases hv
    exact ⟨s, .nil s, .refl s, fun s₂ _ => ⟨steady_imm _, fun _ _ _ => nofun⟩⟩
  | place h =>
    cases h with
    | @reg e t h =>
      obtain ⟨⟨n, _, hresult⟩, hcomputes⟩ := h he
      rcases hcomputes s with ⟨s₁, hseq, hkeeps, hread⟩ | ⟨hnone, _⟩
      · refine ⟨s₁, hseq, hkeeps, fun s₂ hlater => ?_⟩
        have hvalue : some (s₂.get t.result) = S.value s e :=
          hread own (.refl own) s₂ (hlater.mono nofun)
        rw [hv, hresult] at hvalue
        rw [hresult, ← Option.some.inj hvalue]
        exact ⟨steady_abstract n, fun _ _ _ => nofun⟩
      · rw [hv] at hnone
        cases hnone
    | @mem a m h =>
      obtain ⟨address, haddress, hload⟩ := Option.bind_eq_some_iff.mp hv
      obtain ⟨hcheck, hopen, hread⟩ := Setting.load?_eq_some.mp hload
      have hout := hreads address (by simp [Setting.reads, haddress])
      rcases S.address_computes h he s with ⟨s₁, hseq, hkeeps, hprepared⟩ | ⟨hnone, _⟩
      · refine ⟨s₁, hseq, hkeeps, fun s₂ hlater => ?_⟩
        have hat : (S.img.address s₂ m.result).toOption = S.value s a :=
          hprepared own (.refl own) s₂ (hlater.mono nofun)
        rw [haddress] at hat
        refine ⟨steady_mem (h.abstractMem he) (toOption_eq_some.mp hat) hcheck ?_ hout, ?_⟩
        · rw [hlater.memory, hkeeps.memory, hread]
        · intro u hu m' hm' c hc
          obtain rfl := mem_singleton.mp hm'
          rw [(h.abstractMem he).address_eq hu, toOption_eq_some.mp hat] at hc
          cases hc
          exact hopen
      · rw [haddress] at hnone
        cases hnone

/-- The operands of arguments are prepared one after another. -/
theorem Setting.args_steady {args : List Expr} {code : List Instr} {operands : List Operand}
    {vs : List Int64} (h : IsArgs S.IsTile own args code operands) (hargs : ∀ e ∈ args, TempNamed e)
    (hvs : List.Forall₂ (fun e v => S.value s e = some v) args vs)
    (hreads : ∀ e ∈ args, ∀ a ∈ S.reads s e, a.toInt < lo ∨ hi ≤ a.toInt) :
    ∃ s₁, Seq S.img S.ok code s s₁ ∧ S.Keeps own (fun _ => False) s s₁ ∧
      ∀ s₂, S.Keeps own (fun _ => False) s₁ s₂ →
        List.Forall₂ (Steady S.img lo hi s₂) operands vs ∧ ∀ a ∈ operands, S.Clear s₂ a := by
  induction h generalizing s vs with
  | nil =>
    cases hvs
    exact ⟨s, .nil s, .refl s, fun _ _ => ⟨.nil, fun _ => nofun⟩⟩
  | @cons e rest t code operands hoperand _ ih =>
    cases hvs with
    | @cons _ v _ vs hv hvs =>
      obtain ⟨he, hrest⟩ := forall_mem_cons.mp hargs
      obtain ⟨hreade, hreadrest⟩ := forall_mem_cons.mp hreads
      obtain ⟨s₁, hseq, hkeeps, hsteady⟩ := S.operand_steady hoperand he hv hreade
      have hvs₁ : List.Forall₂ (fun e v => S.value s₁ e = some v) rest vs := by
        have hboth := (forall₂_and_left _ _).mpr ⟨hrest, hvs⟩
        exact hboth.imp fun x v ⟨hx, hv⟩ => by rw [hkeeps.value_eq hx, hv]
      have hreads₁ : ∀ x ∈ rest, ∀ a ∈ S.reads s₁ x, a.toInt < lo ∨ hi ≤ a.toInt := by
        intro x hx
        rw [hkeeps.reads_eq (hrest x hx)]
        exact hreadrest x hx
      obtain ⟨s₂, hseq', hkeeps', hsteady'⟩ := ih hrest hvs₁ hreads₁
      refine ⟨s₂, hseq.append hseq', hkeeps.trans hkeeps', fun s₃ hlater => ?_⟩
      obtain ⟨hfirst, hclear⟩ := hsteady s₃ (hkeeps'.trans hlater)
      obtain ⟨hothers, hclears⟩ := hsteady' s₃ hlater
      exact ⟨.cons hfirst hothers, forall_mem_cons.mpr ⟨hclear, hclears⟩⟩

end

section

variable {img : Image} {ok : State → Instr → Prop} {lo hi : Int} {s : State}
variable {operands : List Operand} {vs : List Int64} {n : Nat}

/-- The side condition holds for code wherever the state is as before but for a part of memory,
and the word that a push writes lies in it. -/
def Permits (ok : State → Instr → Prop) (lo hi : Int) (s : State) (code : List Instr) : Prop :=
  ∀ t x, Near lo hi s t → x ∈ code → (usesStack x = true →
    lo ≤ (t.get .rsp).toInt - 8 ∧ (t.get .rsp).toInt ≤ hi) → ok t x

theorem Permits.near {code code' : List Instr} {t : State} (h : Permits ok lo hi s code)
    (hnear : Near lo hi s t) (hsub : code' ⊆ code) : Permits ok lo hi t code' :=
  fun u x hu hx => h u x (hnear.trans hu) (hsub hx)

/-- Operands that are pushed one after another stand on the stack, the last one first. -/
theorem pushes_run (hok : Permits ok lo hi s (operands.map .push))
    (h : List.Forall₂ (Steady img lo hi s) operands vs) (hroom : s.Room (n + operands.length))
    (hlo : lo ≤ (s.get .rsp).toInt - 8 * operands.length) (hhi : (s.get .rsp).toInt ≤ hi) :
    ∃ s', Seq img ok (operands.map .push) s s' ∧ Stacked s s' vs.reverse ∧
      ∀ r, r ≠ .rsp → s'.get r = s.get r := by
  -- On the operands still to be pushed, in the state that those before them leave.
  induction operands generalizing s vs with
  | nil =>
    cases h
    exact ⟨s, .nil s, .refl rfl rfl, fun _ _ => rfl⟩
  | cons a operands ih =>
    cases h with
    | @cons _ v _ vs ha hrest =>
      have hroom₁ : s.advance.Room (n + operands.length + 1) := hroom.advance
      have hpush := push_eq_pushed hroom₁ v
      have hstacked := Stacked.push hroom₁ v
      have hrsp := hstacked.rsp
      simp only [State.get_advance, length_cons, length_nil] at hrsp hlo
      have hnear : Near lo hi s (s.advance.pushed v) := by
        refine ⟨fun k => State.get_pushed (by simp) v, fun b hb => ?_⟩
        rw [hstacked.outside b (by simp only [State.get_advance]; omega)]
        rfl
      have hexec : img.exec s.advance (.push a) = .ok (s.advance.pushed v) := by
        rw [Image.exec, ha s.advance (.advance s)]
        exact hpush
      have hroom₂ : (s.advance.pushed v).Room (n + operands.length) := hstacked.room hroom₁
      have hfirst : ok s (.push a) := hok s _ (.refl s) mem_cons_self fun _ => by omega
      obtain ⟨s', hseq, hstacked', hregs⟩ :=
        ih (hok.near hnear (subset_cons_self _ _)) (hrest.imp fun _ _ h => h.near hnear)
          hroom₂ (by omega) (by omega)
      refine ⟨s', .cons rfl hfirst hexec hseq, ?_, ?_⟩
      · rw [reverse_cons]
        exact hstacked.of_advance.trans hstacked'
      · intro r hr
        rw [hregs r hr, State.get_pushed hr, State.get_advance]

/-- Registers are loaded one after another with operands that depend on none of them. -/
theorem loads_run (dests : Reg → Prop) {pairs : List (Reg × Operand × Int64)}
    (hdests : ∀ p ∈ pairs, dests p.1)
    (hok : ∀ p ∈ pairs, ∀ t, (∀ r, ¬ dests r → t.get r = s.get r) → t.memory = s.memory →
      ok t (.mov (.reg p.1) p.2.1))
    (hvalue : ∀ p ∈ pairs, ∀ t, (∀ r, ¬ dests r → t.get r = s.get r) → t.memory = s.memory →
      img.value t p.2.1 = .ok p.2.2)
    (hnodup : (pairs.map Prod.fst).Nodup) :
    ∃ s', Seq img ok (pairs.map fun p => .mov (.reg p.1) p.2.1) s s' ∧
      (∀ p ∈ pairs, s'.get p.1 = p.2.2) ∧
      (∀ r, (∀ p ∈ pairs, r ≠ p.1) → s'.get r = s.get r) ∧ s'.memory = s.memory := by
  induction pairs generalizing s with
  | nil => exact ⟨s, .nil s, by simp, fun _ _ => rfl, rfl⟩
  | cons p pairs ih =>
    obtain ⟨r, a, v⟩ := p
    obtain ⟨hr, hdests⟩ := forall_mem_cons.mp hdests
    obtain ⟨hfirst, hok⟩ := forall_mem_cons.mp hok
    obtain ⟨ha, hrest⟩ := forall_mem_cons.mp hvalue
    obtain ⟨hnot, hnodup⟩ := nodup_cons.mp hnodup
    have hexec : img.exec s.advance (.mov (.reg r) a) = .ok (s.advance.set r v) := by
      rw [Image.exec, ha s.advance (fun _ _ => rfl) rfl]
      rfl
    -- Later operands do not depend on the register, so their values stay.
    have hset : ∀ q, ¬ dests q → (s.advance.set r v).get q = s.get q := fun q hq =>
      State.get_set_of_ne s.advance v fun heq => hq (heq ▸ hr)
    obtain ⟨s', hseq, hloaded, hregs, hmemory⟩ := ih hdests
      (fun p hp t ht hmem => hok p hp t (fun q hq => (ht q hq).trans (hset q hq)) hmem)
      (fun p hp t ht hmem => hrest p hp t (fun q hq => (ht q hq).trans (hset q hq)) hmem) hnodup
    refine ⟨s', .cons rfl (hfirst s (fun _ _ => rfl) rfl) hexec hseq, ?_, ?_, hmemory⟩
    · grind [State.get_set_self]
    · intro q hq
      obtain ⟨hqr, hqrest⟩ := forall_mem_cons.mp hq
      rw [hregs q hqrest, State.get_set_of_ne _ _ (Ne.symm hqr), State.get_advance]

/-- The word that keeps the stack aligned is taken before the arguments, and not written. -/
theorem padding_run (img : Image) (pushed : Nat)
    (hok : Permits ok lo hi s (if pushed % 2 = 0 then [] else [.arith .sub (.reg .rsp) (.imm 8)]))
    (hroom : s.Room (n + pushed % 2)) :
    ∃ s' pad, Seq img ok
        (if pushed % 2 = 0 then [] else [.arith .sub (.reg .rsp) (.imm 8)]) s s' ∧
      Stacked s s' pad ∧ pad.length = pushed % 2 ∧ (∀ r, r ≠ .rsp → s'.get r = s.get r) ∧
      s'.memory = s.memory := by
  by_cases heven : pushed % 2 = 0
  · rw [if_pos heven, heven]
    exact ⟨s, [], .nil s, .refl rfl rfl, rfl, fun _ _ => rfl, rfl⟩
  · have hodd : pushed % 2 = 1 := by omega
    rw [if_neg heven] at hok ⊢
    rw [hodd] at hroom ⊢
    have hexec : img.exec s.advance (.arith .sub (.reg .rsp) (.imm 8)) =
        .ok (s.advance.set .rsp (s.get .rsp - 8)) := rfl
    have hfirst := hok s _ (.refl s) mem_cons_self nofun
    refine ⟨_, _, .single rfl hfirst hexec, .reserve hroom (State.get_set_self _ _ _) rfl, rfl,
      ?_, rfl⟩
    intro r hr
    rw [State.get_set_of_ne _ _ (Ne.symm hr), State.get_advance]

theorem Near.of_stacked {s' : State} {ws : List Int64} (h : Stacked s s' ws)
    (hregs : ∀ r, r ≠ .rsp → s'.get r = s.get r) (hlo : lo ≤ (s'.get .rsp).toInt)
    (hhi : (s.get .rsp).toInt ≤ hi) : Near lo hi s s' :=
  ⟨fun n => hregs _ (by simp), fun a ha => h.outside a (by omega)⟩

theorem nodup_zip_arguments {α : Type} (xs : List α) :
    ((MachineReg.arguments.zip xs).map Prod.fst).Nodup := by
  rw [zip_eq_zip_take_min, map_fst_zip (by simp)]
  exact List.Nodup.sublist (take_sublist _ _) (by decide)

/-- The moves of arguments into registers. -/
def moving (operands : List Operand) : List Instr :=
  ((MachineReg.arguments.zip operands).map fun (r, a) =>
    Instr.mov (.reg (.machine r)) a).reverse

/-- The first arguments are loaded into their registers, the last of them first. -/
theorem argumentRegisters_run (hok : Permits ok lo hi s (moving operands))
    (h : List.Forall₂ (Steady img lo hi s) operands vs) :
    ∃ s', Seq img ok (moving operands) s s' ∧
      (∀ (i : Nat) r v, MachineReg.arguments[i]? = some r → vs[i]? = some v →
        s'.get (.machine r) = v) ∧
      (∀ r, (∀ q ∈ MachineReg.arguments, r ≠ .machine q) → s'.get r = s.get r) ∧
      s'.memory = s.memory := by
  have hlength := h.length_eq
  -- Each register with its operand and the value that it gets.
  let pairs : List (Reg × Operand × Int64) :=
    ((MachineReg.arguments.zip (operands.zip vs)).map fun p => (Reg.machine p.1, p.2)).reverse
  have hmoves : moving operands = pairs.map fun p => .mov (.reg p.1) p.2.1 := by
    have hfst : (operands.zip vs).map Prod.fst = operands := map_fst_zip (Nat.le_of_eq hlength)
    conv_lhs => rw [moving, ← hfst, zip_map_right, map_map]
    rw [map_reverse, map_map]
    rfl
  have hmem : ∀ p ∈ pairs, ∃ r ∈ MachineReg.arguments, p.1 = .machine r ∧ p.2 ∈ operands.zip vs := by
    intro p hp
    obtain ⟨q, hq, rfl⟩ := mem_map.mp (mem_reverse.mp hp)
    exact ⟨q.1, (of_mem_zip hq).1, rfl, (of_mem_zip hq).2⟩
  have hvalue : ∀ p ∈ pairs, ∀ t, (∀ r, ¬ (∃ q, r = .machine q) → t.get r = s.get r) →
      t.memory = s.memory → img.value t p.2.1 = .ok p.2.2 := by
    intro p hp t ht hmemory
    obtain ⟨_, _, _, hzip⟩ := hmem p hp
    exact (forall₂_iff_zip.mp h).2 hzip t (.of_eq (fun k => ht _ (by simp)) hmemory)
  have hmoveOk : ∀ p ∈ pairs, ∀ t, (∀ r, ¬ (∃ q, r = .machine q) → t.get r = s.get r) →
      t.memory = s.memory → ok t (.mov (.reg p.1) p.2.1) := by
    intro p hp t ht hmemory
    refine hok t _ (.of_eq (fun k => ht _ (by simp)) hmemory) ?_ nofun
    rw [hmoves]
    exact mem_map_of_mem hp
  have hnodup : (pairs.map Prod.fst).Nodup := by
    have hfst : (Prod.fst ∘ fun p : MachineReg × Operand × Int64 => (Reg.machine p.1, p.2)) =
        Reg.machine ∘ Prod.fst := rfl
    rw [map_reverse, nodup_reverse, map_map, hfst, ← map_map]
    exact (nodup_zip_arguments _).map fun _ _ => Reg.machine.inj
  obtain ⟨s', hseq, hloaded, hregs, hmemory⟩ := loads_run (fun r => ∃ q, r = .machine q)
    (fun p hp => by obtain ⟨r, _, hr, _⟩ := hmem p hp; exact ⟨r, hr⟩) hmoveOk hvalue hnodup
  refine ⟨s', hmoves ▸ hseq, ?_, ?_, hmemory⟩
  · intro i r v hr hv
    obtain ⟨a, ha⟩ : ∃ a, operands[i]? = some a := by
      have hlt := (List.getElem?_eq_some_iff.mp hv).1
      exact ⟨_, getElem?_eq_getElem (hlength ▸ hlt)⟩
    have hzip : (MachineReg.arguments.zip (operands.zip vs))[i]? = some (r, a, v) :=
      getElem?_zip_eq_some.mpr ⟨hr, getElem?_zip_eq_some.mpr ⟨ha, hv⟩⟩
    exact hloaded (.machine r, a, v) (mem_reverse.mpr
      (mem_map.mpr ⟨_, mem_of_getElem? hzip, rfl⟩))
  · grind

/-- Arguments are passed behind the word that keeps the stack aligned. -/
def placeArgs (operands : List Operand) : List Instr :=
  (if (operands.length - MachineReg.arguments.length) % 2 = 0 then []
    else [.arith .sub (.reg .rsp) (.imm 8)]) ++ passArgs operands

/-- Arguments are put in place: the registers hold the first ones, the stack the others. -/
theorem passArgs_run (hok : Permits ok lo hi s (placeArgs operands))
    (h : List.Forall₂ (Steady img lo hi s) operands vs)
    (hroom : s.Room (n + stackWords operands.length))
    (hlo : lo ≤ (s.get .rsp).toInt - 8 * stackWords operands.length)
    (hhi : (s.get .rsp).toInt - 8 * ((operands.length - 6) % 2 : Nat) ≤ hi) :
    ∃ s' pad, Seq img ok (placeArgs operands) s s' ∧
      Stacked s s' (vs.drop MachineReg.arguments.length ++ pad) ∧
      (vs.drop MachineReg.arguments.length ++ pad).length = stackWords operands.length ∧
      (∀ (i : Nat) r v, MachineReg.arguments[i]? = some r → vs[i]? = some v →
        s'.get (.machine r) = v) ∧ Near lo hi s s' := by
  have hlength := h.length_eq
  have hsix : MachineReg.arguments.length = 6 := rfl
  have hdrop : (operands.drop MachineReg.arguments.length).reverse.length =
      operands.length - MachineReg.arguments.length := by
    rw [length_reverse, length_drop]
  simp only [stackWords] at hroom hlo ⊢
  -- A word is left out if the number of words to push is odd.
  obtain ⟨s₁, pad, hseq₁, hstacked₁, hpad, hregs₁, hmemory₁⟩ :=
    padding_run img (operands.length - MachineReg.arguments.length)
      (hok.near (.refl s) (subset_append_left _ _))
      (n := n + (operands.length - MachineReg.arguments.length)) (hroom.of_le (by omega))
  have hrsp₁ := hstacked₁.rsp
  have hnear₁ : Near lo hi s s₁ := .of_eq (fun k => hregs₁ _ (by simp)) hmemory₁
  have hsteady₁ := h.imp fun _ _ ha => ha.near hnear₁
  have hroom₁ : s₁.Room (n + (operands.drop MachineReg.arguments.length).reverse.length) := by
    refine hstacked₁.room (hroom.of_le ?_)
    rw [hdrop, hpad]
    omega
  -- The arguments for the stack are pushed, the last one first.
  have hpushes : Permits ok lo hi s₁
      ((operands.drop MachineReg.arguments.length).reverse.map .push) := by
    refine hok.near hnear₁ fun x hx => mem_append_right _ (mem_append_left _ ?_)
    rwa [← map_reverse]
  obtain ⟨s₂, hseq₂, hstacked₂, hregs₂⟩ := pushes_run hpushes
    (rel_reverse (forall₂_drop MachineReg.arguments.length hsteady₁)) hroom₁
    (by rw [hdrop]; omega) (by omega)
  rw [reverse_reverse] at hstacked₂
  have hrsp₂ := hstacked₂.rsp
  have hlen : (vs.drop MachineReg.arguments.length ++ pad).length =
      operands.length - MachineReg.arguments.length +
        (operands.length - MachineReg.arguments.length) % 2 := by
    rw [length_append, length_drop, hpad, ← hlength]
  have hnear₂ : Near lo hi s s₂ := by
    refine hnear₁.trans (.of_stacked hstacked₂ hregs₂ ?_ (by omega))
    rw [length_drop, ← hlength] at hrsp₂
    omega
  -- The registers are loaded last.
  obtain ⟨s₃, hseq₃, hloaded, hregs₃, hmemory₃⟩ :=
    argumentRegisters_run (hok.near hnear₂ fun x hx => mem_append_right _
      (mem_append_right _ hx)) (h.imp fun _ _ ha => ha.near hnear₂)
  refine ⟨s₃, pad, ?_, (hstacked₁.trans hstacked₂).congr (hregs₃ _ (by decide)) hmemory₃, hlen,
    hloaded, ?_⟩
  · rw [placeArgs, passArgs, ← map_reverse]
    exact hseq₁.append (hseq₂.append hseq₃)
  · exact hnear₂.trans (.of_eq (fun k => hregs₃ _ (by simp)) hmemory₃)

end

/-- Whether a word is one of those that a call with `n` arguments pushes them to. -/
def Pushes (s : State) (n : Nat) (a : Int64) : Prop :=
  (s.get .rsp).toInt - 8 * stackWords n ≤ a.toInt ∧
    a.toInt < (s.get .rsp).toInt - 8 * ((n - 6) % 2 : Nat)

instance (s : State) (n : Nat) (a : Int64) : Decidable (Pushes s n a) :=
  inferInstanceAs (Decidable (_ ∧ _))

/-- The side condition holds for pushes to a stretch of memory. -/
def Setting.Pushing (S : Setting) (lo hi : Int) : Prop :=
  ∀ t a, (∀ m ∈ a.words, ∀ c, S.img.address t m = .ok c → c < S.limit ∧ S.hidden c = false) →
    lo ≤ (t.get .rsp).toInt - 8 ∧ (t.get .rsp).toInt ≤ hi → S.ok t (.push a)

section

variable {S : Setting} {own : Owner} {s : State} {lo hi : Int} {operands : List Operand}

theorem Setting.permits_passArgs (hpush : S.Pushing lo hi)
    (hclear : ∀ a ∈ operands, S.Clear s a) : Permits S.ok lo hi s (placeArgs operands) := by
  intro t x hnear hx hstack
  rw [placeArgs, mem_append, passArgs, mem_append, mem_reverse, mem_reverse, mem_map,
    mem_map] at hx
  rcases hx with hx | ⟨a, ha, rfl⟩ | ⟨⟨r, a⟩, hra, rfl⟩
  · split at hx
    · cases hx
    · obtain rfl := mem_singleton.mp hx
      exact S.allows t _ rfl rfl fun m hm => absurd hm not_mem_nil
  · exact hpush t a (hclear a (mem_of_mem_drop ha) t hnear.regs) (hstack rfl)
  · exact S.allows t _ rfl rfl (hclear a (of_mem_zip hra).2 t hnear.regs)

/-- The code of a call up to its call instruction. -/
def arranging (before calling : Bytes) (target : Tile Operand) (code : List Instr)
    (operands : List Operand) : List Instr :=
  .comment before :: (target.code ++ (code ++ .comment calling :: placeArgs operands))

/-- The code of a call comes to its call instruction with the arguments in place. What the call
goes to, unless it is a symbol, is worth what it was before the statement. -/
theorem Setting.arrange_run {f : Expr} {args : List Expr} {vs : List Int64}
    {target : Tile Operand} {code : List Instr} {n : Nat}
    (htarget : IsCallee S.IsTile own f target) (hargs : IsArgs S.IsTile own args code operands)
    (hf : WellNamed f) (hnamed : ∀ a ∈ args, WellNamed a)
    (hvalues : List.Forall₂ (fun e v => S.value s e = some v) args vs)
    (hworth : (∀ k, f ≠ .name k) → ∃ v, S.value s f = some v)
    (hapart : ∀ e ∈ f :: args, ∀ a ∈ S.reads s e, ¬ Pushes s args.length a)
    (hroom : s.Room (n + stackWords args.length))
    (hlo : lo = (s.get .rsp).toInt - 8 * stackWords args.length)
    (hhi : hi = (s.get .rsp).toInt - 8 * ((args.length - 6) % 2 : Nat))
    (hpush : S.Pushing lo hi) (before calling : Bytes) :
    ∃ s₁ pad, Seq S.img S.ok (arranging before calling target code operands) s s₁ ∧
      Stacked s s₁ (vs.drop MachineReg.arguments.length ++ pad) ∧
      (vs.drop MachineReg.arguments.length ++ pad).length = stackWords operands.length ∧
      (∀ (i : Nat) r v, MachineReg.arguments[i]? = some r → vs[i]? = some v →
        s₁.get (.machine r) = v) ∧
      (∀ t, UserName t → s₁.get (.ofName t) = s.get (.ofName t)) ∧
      ∀ v, S.value s f = some v → (∀ k, f ≠ .name k) →
        Steady S.img lo hi s₁ target.result v ∧ S.Clear s₁ target.result := by
  have hlength := hargs.length_eq
  have hf : TempNamed f := hf.tempNamed
  have hnamed : ∀ a ∈ args, TempNamed a := fun a ha => (hnamed a ha).tempNamed
  have hadvance (t : State) : S.Keeps own (fun _ => False) t t.advance := .advance t
  have hcomment (t : State) (text : Bytes) : S.ok t (.comment text) := S.allows t _ rfl rfl nofun
  have hreads : ∀ t, S.Keeps own (fun _ => False) s t → ∀ e ∈ f :: args, ∀ a ∈ S.reads t e,
      a.toInt < lo ∨ hi ≤ a.toInt := by
    intro t ht e he a ha
    rw [ht.reads_eq (forall_mem_cons.mpr ⟨hf, hnamed⟩ e he)] at ha
    have hnot := hapart e he a ha
    rw [Pushes] at hnot
    omega
  -- what the call goes to is prepared first, and stays as it is
  have hcallee : ∃ t₁, Seq S.img S.ok target.code s.advance t₁ ∧
      S.Keeps own (fun _ => False) s.advance t₁ ∧
      ∀ v, S.value s f = some v → (∀ k, f ≠ .name k) → ∀ t₂, S.Keeps own (fun _ => False) t₁ t₂ →
        Steady S.img lo hi t₂ target.result v ∧ S.Clear t₂ target.result := by
    cases htarget with
    | symbol k => exact ⟨s.advance, .nil _, .refl _, fun _ _ hne => absurd rfl (hne k)⟩
    | operand hname h =>
      obtain ⟨v, hv⟩ := hworth hname
      have hv₁ : S.value s.advance f = some v := ((hadvance s).value_eq hf).trans hv
      obtain ⟨t₁, hseq, hkeeps, hsteady⟩ := S.operand_steady h hf hv₁
        (hreads s.advance (hadvance s) f mem_cons_self)
      refine ⟨t₁, hseq, hkeeps, fun v' hv' _ => ?_⟩
      obtain rfl := Option.some.inj (hv.symm.trans hv')
      exact hsteady
  obtain ⟨t₁, hseq₁, hkeeps₁, hcallee⟩ := hcallee
  have hkeeps₁ := (hadvance s).trans hkeeps₁
  have hvalues₁ : List.Forall₂ (fun e v => S.value t₁ e = some v) args vs :=
    ((forall₂_and_left _ _).mpr ⟨hnamed, hvalues⟩).imp fun e v ⟨he, hv⟩ => by
      rw [hkeeps₁.value_eq he, hv]
  obtain ⟨t₂, hseq₂, hkeeps₂, hsteady⟩ := S.args_steady hargs hnamed hvalues₁
    fun e he => hreads t₁ hkeeps₁ e (mem_cons_of_mem f he)
  have hkeeps₃ := hkeeps₂.trans (hadvance t₂)
  have hkept := hkeeps₁.trans hkeeps₃
  have hrsp : t₂.advance.get .rsp = s.get .rsp := hkept.get_machine (by decide) (by decide)
  have hroom₃ : t₂.advance.Room (n + stackWords operands.length) := by
    rw [hlength]
    exact ⟨hrsp ▸ hroom.aligned, hrsp ▸ hroom.low, hrsp ▸ hroom.high⟩
  obtain ⟨hoperands, hclear⟩ := hsteady t₂.advance (hadvance t₂)
  obtain ⟨s₁, pad, hseq₃, hstacked, hwords, hregs, hnear⟩ :=
    passArgs_run (S.permits_passArgs hpush hclear) hoperands hroom₃
      (Int.le_of_eq (by rw [hrsp, hlength, hlo])) (Int.le_of_eq (by rw [hrsp, hlength, hhi]))
  refine ⟨s₁, pad, ?_, ?_, hwords, hregs, fun t ht => ?_, fun v hv hne => ?_⟩
  · exact .cons rfl (hcomment _ _) rfl
      (hseq₁.append (hseq₂.append (.cons rfl (hcomment _ _) rfl hseq₃)))
  · have hstart := (Stacked.refl hrsp hkept.memory).trans hstacked
    rwa [append_nil] at hstart
  · rw [← hkept.get_user ht.tempName, ht.ofName_eq]
    exact hnear.regs t
  · obtain ⟨hvalue, hopen⟩ := hcallee v hv hne t₂.advance hkeeps₃
    exact ⟨hvalue.near hnear, hopen.near hnear⟩

end

end X64Backend.Select
