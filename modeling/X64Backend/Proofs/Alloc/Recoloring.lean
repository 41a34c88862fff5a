import X64Backend.Asm.Registers
import X64Backend.Proofs.Dataflow.Uses
import X64Backend.Proofs.Layout
import X64Backend.Proofs.Machine.Matching

/-! # Code over other registers

Registers are renamed so that two of them may share a register where only one of them
matters. At every position some registers are tracked: those that an instruction reads are
tracked before it, those tracked behind it were so before or are written by it, and a
register that is written shares its new name with no other one tracked behind it, a copied
one apart. Then the renamed code does what the code does, step by step.
-/

namespace X64Backend.Machine

open Asm

/-- A relation of states that is as good as one world. It holds on when both machines do the same
outside of registers, also in calls, and makes ends related when both fail. -/
structure Worldly (calls : Calls) (Z : Int64 → Prop) (W : State → State → Prop)
    (E : Ending → Ending → Prop) : Prop extends Steady W where
  same {s t : State} (h : W s t) : SameWorld Z s t
  write {s t : State} (h : W s t) {a v : Int64} :
    W { s with memory := s.memory.write a v } { t with memory := t.memory.write a v }
  go {s t : State} (h : W s t) {i : Int} : W { s with ip := i } { t with ip := i }
  advance {s t : State} (h : W s t) : W s.advance t.advance
  fails {e : Trap} {s t : State} (h : W s t) : E (.failed e s) (.failed e t)
  regular : calls.Regular Z
  replies {c : Callee} {s t : State} {o o' : Outcome} (h : W s t) (halike : Alike Z s t)
    (ho : calls c s o) (ho' : calls c t o') (hsame : SameResult Z o o') : Outcome.Related W E o o'

theorem worldly_sameWorld {calls : Calls} {Z : Int64 → Prop} (shared : Reg → Prop)
    (hcalls : calls.Regular Z) : Worldly calls Z (SameWorld Z) (SameEnd Z shared) where
  toSteady := steady_sameWorld Z
  same h := h
  write h := h.write _ _
  go h := ⟨h.memory, h.heap, h.output⟩
  advance h := ⟨h.memory, h.heap, h.output⟩
  fails h := ⟨rfl, h⟩
  regular := hcalls
  replies _ _ _ _ hsame := by
    cases hsame with
    | ok hworld => exact .ok hworld
    | error hkind hworld => exact .error ⟨hkind, hworld⟩

/-- The tracked registers hold the same words under their new names, and what else execution
depends on is the same. -/
structure Agree (φ : Reg → Reg) (T : Reg → Prop) (W : State → State → Prop) (s t : State) :
    Prop where
  regs : ∀ r, T r → t.get (φ r) = s.get r
  world : W s t
  left : s.left = t.left
  right : s.right = t.right

section

variable {φ : Reg → Reg} {T T' : Reg → Prop} {Z : Int64 → Prop} {W : State → State → Prop}
  {E : Ending → Ending → Prop} {calls : Calls} {s t : State}

theorem Agree.mono (h : Agree φ T W s t) (hT : ∀ r, T' r → T r) : Agree φ T' W s t :=
  ⟨fun r hr => h.regs r (hT r hr), h.world, h.left, h.right⟩

theorem Agree.advance (h : Agree φ T W s t) (hW : Worldly calls Z W E) :
    Agree φ T W s.advance t.advance :=
  ⟨h.regs, hW.advance h.world, h.left, h.right⟩

theorem Agree.set (h : Agree φ T W s t) (hW : Steady W) {d : Reg} {v : Int64}
    (hT : ∀ r, T' r → r ≠ d → T r ∧ (φ r = φ d → s.get r = v)) :
    Agree φ T' W (s.set d v) (t.set (φ d) v) := by
  refine ⟨?_, hW.regs h.world, h.left, h.right⟩
  intro r hr
  by_cases hrd : r = d
  · rw [hrd, State.get_set_self, State.get_set_self]
  · grind [State.get_set_of_ne, State.get_set_self, h.regs]

theorem Agree.write (h : Agree φ T W s t) (hW : Worldly calls Z W E) (a v : Int64) :
    Agree φ T W { s with memory := s.memory.write a v } { t with memory := t.memory.write a v } :=
  ⟨h.regs, hW.write h.world, h.left, h.right⟩

theorem Agree.baseWord_eq (h : Agree φ T W s t) (hrip : ∀ r, φ r = .rip ↔ r = .rip)
    {base : Option Reg} (hbase : ∀ r, base = some r → r ≠ .rip → T r) :
    baseWord t (base.map φ) = baseWord s base := by
  cases base with
  | none => rfl
  | some r =>
    rw [Option.map_some]
    by_cases hr : r = .rip
    · rw [hr, (hrip .rip).mpr rfl]
      rfl
    · have hword : ∀ (u : State) (q : Reg), q ≠ .rip → baseWord u (some q) = u.get q := by
        intro u q hq
        cases q with
        | rip => exact absurd rfl hq
        | _ => rfl
      rw [hword t _ (fun hφ => hr ((hrip r).mp hφ)), hword s r hr]
      exact h.regs r (hbase r rfl hr)

theorem Agree.indexWord_eq (h : Agree φ T W s t) {index : Option (Reg × Int64)}
    (hindex : ∀ r k, index = some (r, k) → T r) :
    indexWord t (index.map fun (r, k) => (φ r, k)) = indexWord s index := by
  cases index with
  | none => rfl
  | some p =>
    obtain ⟨r, k⟩ := p
    show t.get (φ r) * k = s.get r * k
    rw [h.regs r (hindex r k rfl)]

/-- An address is made of the same words under the new names of its registers. -/
theorem Agree.address_eq {img img' : Image} (h : Agree φ T W s t)
    (hconst : ∀ c, img'.constValue c = img.constValue c) (hrip : ∀ r, φ r = .rip ↔ r = .rip)
    {m : Mem} (hm : ∀ r ∈ m.regs, T r) :
    img'.address t (m.mapRegs φ) = img.address s m := by
  have hbase : ∀ r, m.base = some r → r ≠ .rip → T r := by
    intro r hr hne
    apply hm
    cases r with
    | rip => exact absurd rfl hne
    | _ => simp [Mem.regs, hr]
  have hindex : ∀ r k, m.index = some (r, k) → T r := by
    intro r k hr
    apply hm
    simp [Mem.regs, hr]
  rw [Machine.address_eq, Machine.address_eq, Mem.mapRegs, hconst, h.baseWord_eq hrip hbase,
    h.indexWord_eq hindex]

theorem Outcome.Related.imp {R R' : State → State → Prop} {E : Ending → Ending → Prop}
    {o o' : Outcome} (h : Outcome.Related R E o o') (hR : ∀ s t, R s t → R' s t) :
    Outcome.Related R' E o o' := by
  cases h with
  | ok h => exact .ok (hR _ _ h)
  | error h => exact .error h

/-- A call from states that look the same to the callee. What is tracked behind it is set by
the call, or was tracked and is kept under both names. -/
theorem Agree.related_call (h : Agree φ T W s t) (hW : Worldly calls Z W E) (halike : Alike Z s t)
    (hmachine : ∀ q, φ (.machine q) = .machine q)
    (hT : ∀ r, T' r → (∀ q ∈ MachineReg.callerSaved, r ≠ .machine q) →
      T r ∧ ∀ q ∈ MachineReg.callerSaved, φ r ≠ .machine q)
    {c : Callee} {o' : Outcome} (ho' : calls c t o') :
    ∃ o, calls c s o ∧ Outcome.Related
      (fun s' t' => s'.ip = s.ip ∧ t'.ip = t.ip ∧ Agree φ T' W s' t') E o o' := by
  have hcalls := hW.regular
  obtain ⟨o, ho, hsame⟩ := hcalls.same halike ho'
  have hreplies := hW.replies h.world halike ho ho' hsame
  refine ⟨o, ho, ?_⟩
  cases hreplies with
  | error hend => exact .error hend
  | ok hworld =>
    cases hsame with
    | ok _ hleft hright hregs =>
      refine .ok ⟨hcalls.ip ho, hcalls.ip ho', ?_, hworld, hleft, hright⟩
      intro r hr
      by_cases hsaved : ∃ q ∈ MachineReg.callerSaved, r = .machine q
      · obtain ⟨q, hq, rfl⟩ := hsaved
        rw [hmachine, hregs q hq]
      · have hne : ∀ q ∈ MachineReg.callerSaved, r ≠ .machine q := by
          intro q hq hrq
          exact hsaved ⟨q, hq, hrq⟩
        obtain ⟨hold, hφ⟩ := hT r hr hne
        rw [hcalls.regs ho' (φ r) hφ, hcalls.regs ho r hne]
        exact h.regs r hold

end

end X64Backend.Machine

namespace X64Backend.Alloc

open Asm Machine Dataflow List

/-- Where control may go from an instruction at a position. -/
inductive Next (labels : LabelTable) (i : Nat) : Instr → Nat → Prop
  | fall {x : Instr} (h : ∀ c l, x = .jump c l → c.isConditional = true) :
      Next labels i x (i + 1)
  | jump {c : Cond} {l : Name} {j : Nat} (h : labels[l]? = some j) :
      Next labels i (.jump c l) j

theorem Next.step {labels : LabelTable} {i : Nat} {x : Instr} (h : ∀ c l, x ≠ .jump c l) :
    Next labels i x (i + 1) :=
  .fall fun c l hc => absurd hc (h c l)

/-- Renamed registers and the registers tracked at each position. -/
structure Recolors (labels : LabelTable) (code : List Instr) (φ : Reg → Reg)
    (T : Nat → Reg → Prop) : Prop where
  machine : ∀ r, φ (.machine r) = .machine r
  rip : ∀ r, φ r = .rip ↔ r = .rip
  rsp : ∀ i, T i .rsp
  rbp : ∀ i, T i .rbp
  used : ∀ {i x r}, code[i]? = some x → r ∈ uses x → T i r
  kept : ∀ {i x j r}, code[i]? = some x → Next labels i x j → T j r → r ∉ defs x → T i r
  apart : ∀ {i x j d r}, code[i]? = some x → Next labels i x j → d ∈ defs x → T j r → r ≠ d →
    φ r = φ d → x = .mov (.reg d) (.reg r)

/-- Both states stand at one position, and are related as the position demands. -/
def Locked (R : Nat → State → State → Prop) (s t : State) : Prop :=
  ∃ i : Nat, s.ip = i ∧ t.ip = i ∧ R i s t

/-- The instruction that an instruction becomes: renamed, or a comment if it becomes a copy of
a register to itself. -/
inductive Becomes (φ : Reg → Reg) : Instr → Instr → Prop
  | renamed (x : Instr) : Becomes φ x (x.mapRegs φ)
  | copy {d r : Reg} (text : Bytes) (h : φ d = φ r) :
      Becomes φ (.mov (.reg d) (.reg r)) (.comment text)

theorem Becomes.label?_eq {φ : Reg → Reg} {x y : Instr} (h : Becomes φ x y) :
    y.label? = x.label? := by
  cases h with
  | renamed => cases x <;> rfl
  | copy => rfl

/-- Labels stand where they stood. -/
theorem labelTable_becomes {φ : Reg → Reg} {code code' : List Instr}
    (h : List.Forall₂ (Becomes φ) code code') : labelTable code' = labelTable code := by
  have hadd : ∀ i x rest table, LabelTable.addFrom i (x :: rest) table =
      LabelTable.addFrom (i + 1) rest
        (x.label?.elim table fun n => table.insert n i) := by
    intro i x rest table
    cases x <;> rfl
  unfold labelTable
  generalize (∅ : LabelTable) = table
  generalize 0 = i
  induction h generalizing i table with
  | nil => rfl
  | cons hx _ ih =>
    rw [hadd, hadd, hx.label?_eq]
    exact ih _ _

/-- Instructions that a function's own code is made of: nothing is popped, and control does not
return before the end. -/
def isOwn : Instr → Bool
  | .ret | .popRbp => false
  | _ => true

namespace Recolors

variable {labels : LabelTable} {code : List Instr} {φ : Reg → Reg} {T : Nat → Reg → Prop}
  {Z : Int64 → Prop} {i : Nat} {x : Instr} {s t : State} {img img' : Image}
variable {a : Operand} {calls : Calls} {shared : Reg → Prop} {W : State → State → Prop}
  {E : Ending → Ending → Prop}

theorem isCall_mapRegs (φ : Reg → Reg) (x : Instr) : isCall (x.mapRegs φ) = isCall x := by
  cases x <;> rfl

theorem words_mapRegs (φ : Reg → Reg) (x : Instr) :
    (x.mapRegs φ).words = x.words.map (Mem.mapRegs φ) := by
  have hop : ∀ a : Operand, (a.mapRegs φ).words = a.words.map (Mem.mapRegs φ) := by
    intro a
    cases a <;> rfl
  cases x <;> simp [Instr.mapRegs, Instr.words, hop]

theorem usesStack_mapRegs (φ : Reg → Reg) (x : Instr) :
    usesStack (x.mapRegs φ) = usesStack x := by
  cases x <;> rfl

variable (h : Recolors labels code φ T)

include h

theorem locked_set (hW : Steady W) (hag : Agree φ (T i) W s t)
    (hx : code[i]? = some x) (hs : s.ip = (i + 1 : Nat)) (ht : t.ip = (i + 1 : Nat)) {d : Reg}
    (hdefs : defs x = [d]) {v : Int64} (hv : ∀ r, x = .mov (.reg d) (.reg r) → s.get r = v) :
    Locked (fun j => Agree φ (T j) W) (s.set d v) (t.set (φ d) v) := by
  have hnext : Next labels i x (i + 1) := .step (by rintro c l rfl; cases hdefs)
  refine ⟨i + 1, hs, ht, hag.set hW ?_⟩
  intro r hr hne
  refine ⟨h.kept hx hnext hr (by simp [hdefs, hne]), ?_⟩
  intro hφ
  exact hv r (h.apart hx hnext (by simp [hdefs]) hr hne hφ)

/-- An instruction that writes two registers, one after the other. -/
theorem agree_set_pair (hW : Steady W) (hag : Agree φ (T i) W s t)
    (hx : code[i]? = some x) {d e : Reg} (hdefs : defs x = [d, e])
    (hmov : ∀ q r, x ≠ .mov (.reg q) (.reg r)) (v w : Int64) :
    Agree φ (T (i + 1)) W ((s.set d v).set e w) ((t.set (φ d) v).set (φ e) w) := by
  have hnext : Next labels i x (i + 1) := .step (by rintro c l rfl; cases hdefs)
  have hapart : ∀ q ∈ [d, e], ∀ u, T (i + 1) u → u ≠ q → φ u ≠ φ q := fun q hq u hu hne hφ =>
    hmov q u (h.apart hx hnext (hdefs ▸ hq) hu hne hφ)
  -- the second register is not tracked in between
  have hmid : Agree φ (fun u => u = d ∨ T (i + 1) u ∧ u ≠ e) W (s.set d v) (t.set (φ d) v) := by
    grind [hag.set, h.kept]
  apply hmid.set hW
  intro u hu hne
  exact ⟨.inr ⟨hu, hne⟩, fun hφ => absurd hφ (hapart e (by simp) u hu hne)⟩

theorem locked_stay (hag : Agree φ (T i) W s t)
    (hx : code[i]? = some x) (hs : s.ip = (i + 1 : Nat)) (ht : t.ip = (i + 1 : Nat))
    (hnext : Next labels i x (i + 1)) (hdefs : defs x = []) :
    Locked (fun j => Agree φ (T j) W) s t :=
  ⟨i + 1, hs, ht, hag.mono fun _ hr => h.kept hx hnext hr (by simp [hdefs])⟩

theorem apart_becomes (hag : Agree φ (T i) W s t)
    (hconst : ∀ c, img'.constValue c = img.constValue c) (hx : code[i]? = some x) {y : Instr}
    (hy : Becomes φ x y) (hok : Apart Z img s x) : Apart Z img' t y := by
  cases hy with
  | copy text hφ => exact ⟨fun m hm => (nomatch hm), fun hstack => (nomatch hstack)⟩
  | renamed =>
    constructor
    · intro m hm b hb
      rw [words_mapRegs] at hm
      obtain ⟨n, hn, rfl⟩ := mem_map.mp hm
      rw [hag.address_eq hconst h.rip fun r hr => h.used hx (regs_subset_uses hn hr)] at hb
      exact hok.words n hn b hb
    · intro hstack
      rw [usesStack_mapRegs] at hstack
      have hrsp := hag.regs .rsp (h.rsp i)
      rw [h.machine] at hrsp
      rw [hrsp]
      exact hok.stack hstack

section

variable (hW : Worldly calls Z W E) (hag : Agree φ (T i) W s t)

include hW hag

/-- Related states look the same to a callee. -/
theorem alike (hx : code[i]? = some (.call a)) : Alike Z s t := by
  have hmachine : ∀ r, T i (.machine r) → s.get (.machine r) = t.get (.machine r) := by
    intro r hr
    rw [← hag.regs _ hr, h.machine]
  refine ⟨hW.same hag.world, hag.left, hag.right, hmachine _ (h.rsp i), hmachine _ (h.rbp i), ?_⟩
  exact fun r hr => hmachine r (h.used hx (by simp [hr]))

/-- A call from related states leaves related states. -/
theorem related_call (hx : code[i]? = some (.call a)) (hs : s.ip = (i + 1 : Nat))
    (ht : t.ip = (i + 1 : Nat)) {c : Callee} {o' : Outcome} (ho' : calls c t o') :
    ∃ o, calls c s o ∧ Outcome.Related (Locked fun j => Agree φ (T j) W) E o o' := by
  have hnext : Next labels i (.call a) (i + 1) := .fall fun _ _ => Instr.noConfusion
  have hT : ∀ r, T (i + 1) r → (∀ q ∈ MachineReg.callerSaved, r ≠ .machine q) →
      T i r ∧ ∀ q ∈ MachineReg.callerSaved, φ r ≠ .machine q := by
    intro r hr hne
    have hdefs : r ∉ defs (.call a) := by
      grind [defs_call]
    refine ⟨h.kept hx hnext hr hdefs, ?_⟩
    -- a register that lives across the call got none that the call changes
    intro q hq hφ
    have hmov := h.apart hx hnext (d := .machine q)
      (by rw [defs_call]; exact mem_map_of_mem hq) hr (hne q hq)
      (hφ.trans (h.machine q).symm)
    cases hmov
  obtain ⟨o, ho, hrel⟩ := hag.related_call hW (h.alike hW hag hx) h.machine hT ho'
  refine ⟨o, ho, hrel.imp fun s' t' h' => ?_⟩
  exact ⟨i + 1, h'.1.trans hs, h'.2.1.trans ht, h'.2.2⟩

variable (hconst : ∀ c, img'.constValue c = img.constValue c)

include hconst

theorem value_eq (ha : ∀ r ∈ a.regs, T i r)
    (hZ : ∀ m ∈ a.words, ∀ b, img.address s m = .ok b → ¬ Z b) :
    img.value s a = img'.value t (a.mapRegs φ) := by
  cases a with
  | reg r => exact congrArg Except.ok (hag.regs r (ha r (by simp [Operand.regs]))).symm
  | const c => exact (hconst c).symm
  | mem m =>
    exact value_mem_eq (hag.address_eq hconst h.rip ha).symm (hW.same hag.world)
      (hZ m (by simp [Operand.words]))
  | absent => rfl

theorem callee_eq (ha : ∀ r ∈ a.regs, T i r)
    (hZ : ∀ m ∈ a.words, ∀ b, img.address s m = .ok b → ¬ Z b) :
    img.callee s a = img'.callee t (a.mapRegs φ) := by
  have hval := congrArg (Callee.address <$> ·) (h.value_eq hW hag hconst ha hZ)
  cases a with
  | const c =>
    cases c with
    | imm v => exact hval
    | sym n => rfl
  | _ => exact hval

theorem lands (hx : code[i]? = some x) (hs : s.ip = (i + 1 : Nat)) (ht : t.ip = (i + 1 : Nat))
    {d : Operand} (hfall : falls x = true) (hdefs : defs x = d.target)
    (hd : ∀ r ∈ d.indirect, T i r)
    {v : Int64} (hv : ∀ q r, x = .mov (.reg q) (.reg r) → s.get r = v) :
    Lands (Locked fun j => Agree φ (T j) W) (img.assign s d v)
      (img'.assign t (d.mapRegs φ) v) := by
  have hnext : Next labels i x (i + 1) := .step (by rintro c l rfl; cases hfall)
  cases d with
  | reg r => exact .ok (h.locked_set hW.toSteady hag hx hs ht hdefs fun q => hv r q)
  | mem m =>
    refine Lands.assign_mem (hag.address_eq hconst h.rip hd).symm ?_
    intro a _
    refine ⟨i + 1, hs, ht, (hag.mono ?_).write hW a v⟩
    exact fun _ hr => h.kept hx hnext hr (by simp [hdefs, Operand.target])
  | const c | absent => exact .error _

/-- A renamed instruction does what the instruction does. -/
theorem matches_renamed (hlabels : img.labels = labels)
    (hlabels' : img'.labels = labels) (hx : code[i]? = some x)
    (hs : s.ip = (i + 1 : Nat)) (ht : t.ip = (i + 1 : Nat)) (hok : Apart Z img s x)
    (hown : isOwn x = true) (hcall : isCall x = false)
    (htarget : ∀ c l, x = .jump c l → (labels[l]?).isSome = true) :
    Matches img img' s t (Locked fun j => Agree φ (T j) W) x (x.mapRegs φ) := by
  -- Reading and writing, once for all forms.
  have hval : ∀ a : Operand, a.regs ⊆ uses x → a.words ⊆ x.words →
      img.value s a = img'.value t (a.mapRegs φ) := fun a ha hw =>
    h.value_eq hW hag hconst (fun r hr => h.used hx (ha hr)) fun m hm => hok.words m (hw hm)
  have hset : ∀ d, defs x = [d] → (∀ r, x ≠ .mov (.reg d) (.reg r)) → ∀ v,
      Locked (fun j => Agree φ (T j) W) (s.set d v) (t.set (φ d) v) := fun d hd hne v =>
    h.locked_set hW.toSteady hag hx hs ht hd fun r hr => absurd hr (hne r)
  have hland : ∀ d, falls x = true → defs x = d.target → d.indirect ⊆ uses x →
      (∀ q r, x ≠ .mov (.reg q) (.reg r)) → ∀ v,
      Lands (Locked fun j => Agree φ (T j) W) (img.assign s d v)
        (img'.assign t (d.mapRegs φ) v) := fun d hf hd hi hne v =>
    h.lands hW hag hconst hx hs ht hf hd (fun r hr => h.used hx (hi hr)) fun q r hq =>
      absurd hq (hne q r)
  have hindirect : ∀ d : Operand, d.indirect ⊆ d.regs := by
    intro d
    cases d with
    | mem m => exact List.Subset.refl _
    | _ => exact nil_subset _
  have hget : ∀ r, .machine r ∈ uses x → s.get (.machine r) = t.get (.machine r) := by
    intro r hr
    rw [← hag.regs _ (h.used hx hr), h.machine]
  cases x with
  | movAbs d v => exact .movAbs (hset d rfl (fun _ => Instr.noConfusion) v)
  | mov d a =>
    refine .mov (hval a (by simp) (by simp [Instr.words])) fun v hv => ?_
    refine h.lands hW hag hconst hx hs ht rfl (defs_mov d a) ?_ ?_
    · intro r hr
      exact h.used hx (by simp [hr])
    -- A copy writes what the register has that it reads.
    · intro q r hq
      obtain ⟨_, rfl⟩ := Instr.mov.inj hq
      cases hv
      rfl
  | lea d m =>
    refine .lea (hag.address_eq hconst h.rip ?_).symm (hset d (defs_lea d m) ?_)
    · exact fun r hr => h.used hx (by simpa using hr)
    · exact fun _ => Instr.noConfusion
  | cmp a b =>
    refine .cmp (hval a (by simp) (by simp [Instr.words]))
      (hval b (by simp) (by simp [Instr.words])) fun l r => ?_
    have hag' : Agree φ (T i) W { s with left := l, right := r }
        { t with left := l, right := r } :=
      ⟨hag.regs, hW.compare hag.world, rfl, rfl⟩
    exact h.locked_stay hag' hx hs ht (.fall fun _ _ => Instr.noConfusion) (defs_cmp a b)
  | set c d =>
    have h0 := hset d rfl (fun _ => Instr.noConfusion) 0
    refine .set h0 ?_
    -- If the condition holds the register is written a second time.
    obtain ⟨j, hj, hj', hag'⟩ := h0
    refine ⟨j, hj, hj', hag'.set hW.toSteady ?_⟩
    intro r hr hne
    refine ⟨hr, fun hφ => ?_⟩
    have hmov := h.apart hx (.fall fun _ _ => Instr.noConfusion) (d := d) (by simp)
      (show T (i + 1) r by
        have hij : j = i + 1 := by simp only [State.ip_set, hs] at hj; omega
        exact hij ▸ hr) hne hφ
    cases hmov
  | jump c l =>
    obtain ⟨j, hj⟩ := Option.isSome_iff_exists.mp (htarget c l rfl)
    refine .jump (hlabels ▸ hj) (hlabels' ▸ hj) (fun hc => ?_) ?_
    · refine h.locked_stay hag hx hs ht (.fall ?_) rfl
      intro c' l' hcl
      cases hcl
      exact hc
    · refine ⟨j, rfl, rfl, ?_⟩
      exact ⟨fun r hr => hag.regs r (h.kept hx (.jump hj) hr (by simp)), hW.go hag.world, hag.left,
        hag.right⟩
  | call a => cases hcall
  | ret | popRbp => cases hown
  | arith op d a =>
    refine .arith (hval d (by simp) (by simp [Instr.words]))
      (hval a (by simp) (by simp [Instr.words])) ?_
    refine hland d rfl (defs_arith d a op) ?_ fun _ _ => Instr.noConfusion
    exact List.Subset.trans (hindirect d) (by simp)
  | imul d a =>
    refine .imul ?_ (hval a (by simp) (by simp [Instr.words]))
      (hset d (defs_imul d a) fun _ => Instr.noConfusion)
    exact (hag.regs d (h.used hx (by simp))).symm
  | imul3 d a k =>
    exact .imul3 (hval a (by simp) (by simp [Instr.words]))
      (hset d (defs_imul3 d a k) fun _ => Instr.noConfusion)
  | cqo =>
    refine .cqo (hget .rax (by simp)) fun v => ?_
    have hrdx := hset .rdx rfl (fun _ => Instr.noConfusion) v
    rw [h.machine] at hrdx
    exact hrdx
  | idiv a =>
    refine .idiv (hval a (by simp) (by simp [Instr.words])) (hget .rax (by simp)) fun q r => ?_
    have hlast := h.agree_set_pair hW.toSteady hag hx (defs_idiv a) (fun _ _ => Instr.noConfusion) q r
    rw [h.machine, h.machine] at hlast
    exact ⟨i + 1, hs, ht, hlast⟩
  | neg d =>
    refine .neg (hval d (by simp) (by simp [Instr.words])) ?_
    refine hland d rfl (defs_neg d) ?_ fun _ _ => Instr.noConfusion
    simpa using hindirect d
  | shl d k =>
    refine .shl (hval d (by simp) (by simp [Instr.words])) ?_
    refine hland d rfl (defs_shl d k) ?_ fun _ _ => Instr.noConfusion
    simpa using hindirect d
  | push a =>
    have hrsp := hget .rsp (by simp)
    refine .push (hval a (by simp) (by simp [Instr.words])) hrsp fun v => ?_
    obtain ⟨j, hj, hj', hag'⟩ := hset .rsp (defs_push a) (fun _ => Instr.noConfusion)
      (s.get .rsp - 8)
    rw [h.machine] at hj' hag'
    exact ⟨j, hj, hj', hag'.write hW _ v⟩
  | label l => exact .label (h.locked_stay hag hx hs ht (.fall fun _ _ => Instr.noConfusion) rfl)
  | comment text =>
    exact .comment (h.locked_stay hag hx hs ht (.fall fun _ _ => Instr.noConfusion) rfl)
  | absent => exact .absent

/-- What an instruction becomes answers each of its steps. -/
theorem moves_related (hlabels : img.labels = labels) (hlabels' : img'.labels = labels)
    (hx : code[i]? = some x) (hs : s.ip = i) (ht : t.ip = i) (hok : Apart Z img s x)
    (hown : isOwn x = true)
    (htarget : ∀ c l, x = .jump c l → (labels[l]?).isSome = true) {y : Instr} (hy : Becomes φ x y)
    {o' : Outcome} (ho' : img'.Moves calls t y o') :
    ∃ o, img.Moves calls s x o ∧ Outcome.Related (Locked fun j => Agree φ (T j) W) E o o' := by
  have hag' := hag.advance hW
  have hs' : s.advance.ip = (i + 1 : Nat) := by rw [State.ip_advance, hs]; rfl
  have ht' : t.advance.ip = (i + 1 : Nat) := by rw [State.ip_advance, ht]; rfl
  have hok' : Apart Z img s.advance x := ⟨hok.words, hok.stack⟩
  cases hy with
  | copy text hφ =>
    rename_i d r
    cases ho'
    refine ⟨_, rfl, .ok ⟨i + 1, hs', ht', ?_, ?_, hag'.left, hag'.right⟩⟩
    case refine_2 => exact hW.regs hag'.world
    intro u hu
    -- The copy is left out, since both registers became one.
    by_cases hud : u = d
    · rw [hud, hφ, State.get_set_self]
      exact hag'.regs r (h.used hx (by simp [Operand.regs]))
    · rw [State.get_set_of_ne _ _ (Ne.symm hud)]
      have hnext : Next labels i (.mov (.reg d) (.reg r)) (i + 1) :=
        .fall fun _ _ => Instr.noConfusion
      exact hag'.regs u (h.kept hx hnext hu (by simpa [Operand.target] using hud))
  | renamed =>
    by_cases hcall : isCall x = false
    · rw [Image.moves_of_not_call (by rw [isCall_mapRegs, hcall])] at ho'
      refine ⟨_, (Image.moves_of_not_call hcall).mpr rfl, ?_⟩
      rw [ho']
      exact (h.matches_renamed hW hag' hconst hlabels hlabels' hx hs' ht' hok' hown hcall
        htarget).exec hW.toSteady hW.fails hag'.world hag'.left hag'.right
    · cases x with
      | call a =>
        simp only [Instr.mapRegs, Image.Moves] at ho' ⊢
        have hsame := h.callee_eq hW hag' hconst (a := a)
          (fun r hr => h.used hx (by simp [hr])) fun m hm => hok'.words m hm
        rw [← hsame] at ho'
        cases hcallee : img.callee s.advance a with
        | ok c =>
          rw [hcallee] at ho'
          exact h.related_call hW hag' hx hs' ht' ho'
        | error e =>
          rw [hcallee] at ho'
          rw [ho']
          exact ⟨_, rfl, .error (hW.fails hag'.world)⟩
      | _ => exact absurd rfl hcall

end

omit h in
/-- Code with its registers renamed simulates the code. -/
theorem simulation {code' : List Instr} (h : Recolors img.labels code φ T)
    (hcalls : calls.Regular Z) (hcode : img.code = code.toArray)
    (hcode' : img'.code = code'.toArray) (hlabels : img'.labels = img.labels)
    (hglobals : img'.globals = img.globals) (hbecomes : List.Forall₂ (Becomes φ) code code')
    (hown : ∀ x ∈ code, isOwn x = true)
    (htargets : ∀ c l, .jump c l ∈ code → (img.labels[l]?).isSome = true)
    (hshared : ∀ r, shared r → T code.length r ∧ φ r = r) :
    Simulation calls img img' (Apart Z img) (Apart Z img') (SameEnd Z shared)
      (Locked fun j => Agree φ (T j) (SameWorld Z)) fun _ => 0 := by
  have hconst : ∀ c, img'.constValue c = img.constValue c := by
    intro c
    cases c with
    | imm v => rfl
    | sym n => simp only [Image.constValue, hlabels, hglobals]
  constructor
  · rintro s t ⟨i, hs, ht, hag⟩ hend
    have hi : i = code.length := by
      rw [hs, hcode, size_toArray] at hend
      omega
    subst hi
    refine .done ?_ ⟨hag.world, fun r hr => ?_⟩
    · rw [ht, hcode', size_toArray, hbecomes.length_eq]
    · obtain ⟨hT, hφ⟩ := hshared r hr
      rw [← hag.regs r hT, hφ]
  · rintro s t x ⟨i, hs, ht, hag⟩ ⟨j, hj, hx⟩ hok
    have hij : j = i := by omega
    subst hij
    rw [hcode, getElem?_toArray] at hx
    obtain ⟨y, hy, hbecome⟩ := getElem?_of_forall₂ hbecomes hx
    have hmem := mem_of_getElem? hx
    refine .inr (.last ⟨j, ht, ?_⟩ (h.apart_becomes hag hconst hx hbecome hok) ?_)
    · rw [hcode', getElem?_toArray, hy]
    · intro o' ho'
      refine h.moves_related (worldly_sameWorld shared hcalls) hag hconst rfl hlabels hx hs ht hok
        (hown x hmem) ?_ hbecome ho'
      intro c l hcl
      exact htargets c l (hcl ▸ hmem)

end Recolors

end X64Backend.Alloc
