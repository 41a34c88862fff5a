import X64Backend.Proofs.Generated

/-! # Where registers come from

Every register that the code of a function names, from selection to the last round of
allocation, is one of the machine's, the instruction pointer, a temporary of the function, a
register that keeps a callee-saved one, or issued by the function's supply. A name tells which
of these it is, and no name that is issued later is in the code.
-/

namespace X64Backend

open Asm Code Select Alloc List

namespace Code

/-- The temporary occurs in the expression. -/
def Expr.Mentions (t : Name) : Expr → Prop
  | .temp u => t = u
  | .mem a => a.Mentions t
  | .binary _ l r => l.Mentions t ∨ r.Mentions t
  | .const _ | .name _ | .absent => False

/-- The temporary occurs in the statement, as a destination or in an expression. -/
def Stmt.Mentions (t : Name) : Stmt Expr → Prop
  | .move dest src => t = dest ∨ src.Mentions t
  | .store a src => a.Mentions t ∨ src.Mentions t
  | .call f args result => f.Mentions t ∨ (∃ a ∈ args, a.Mentions t) ∨ result = some t
  | .branch cond _ => cond.Mentions t
  | .ret value => ∃ e ∈ value, e.Mentions t
  | .jump _ | .label _ | .absent => False

variable {t : Name}

theorem Expr.mem_temps {e : Expr} : t ∈ e.temps ↔ e.Mentions t := by
  induction e with
  | mem a ih => exact ih
  | binary op l r ihl ihr => rw [temps, mem_append, ihl, ihr, Mentions]
  | temp u => exact mem_singleton
  | const v | name n | absent => exact mem_nil_iff _

theorem Stmt.mem_temps {s : Stmt Expr} : t ∈ s.temps ↔ s.Mentions t := by
  cases s with
  | move dest src => rw [temps, mem_cons, Expr.mem_temps, Mentions]
  | store a src => rw [temps, mem_append, Expr.mem_temps, Expr.mem_temps, Mentions]
  | call f args result =>
    simp only [temps, Mentions, mem_append, mem_flatMap, Option.mem_toList,
      Expr.mem_temps, or_assoc]
  | branch e target => exact Expr.mem_temps
  | ret value => cases value <;> simp [temps, Mentions, Expr.mem_temps]
  | jump target | label l | absent => exact mem_nil_iff _

theorem nodup_eraseDups (names : List Name) : names.eraseDups.Nodup := by
  induction h : names.length using Nat.strongRecOn generalizing names with
  | ind n ih =>
    cases names with
    | nil => exact nodup_nil
    | cons name names =>
      rw [eraseDups_cons, nodup_cons]
      refine ⟨by simp [mem_eraseDups], ih _ ?_ _ rfl⟩
      have hle := length_filter_le (fun b => !b == name) names
      rw [length_cons] at h
      omega

end Code

namespace Generate

/-- What a register is in a function's code for. -/
inductive Origin
  | machine
  | pointer
  | temp
  | saved
  | issued
  deriving DecidableEq

namespace Origin

/-- The names of registers that are in the code for this, as far as the supply has issued them. -/
def Names (temps : List Name) (supply : Supply) : Origin → Name → Prop
  | .machine, n => ∃ q, n = (Reg.machine q).name
  | .pointer, n => n = Reg.rip.name
  | .temp, n => n ∈ temps
  | .saved, n => ∃ q ∈ MachineReg.calleeSaved, n = (Reg.saved (.machine q)).name
  | .issued, n => ∃ k < supply.issued, n = (Reg.issued k).name

/-- The origin that a name tells. -/
def ofName (n : Name) : Origin :=
  match Reg.ofName n with
  | .machine _ => .machine
  | .rip => .pointer
  | .abstract n =>
    if Reg.issuedMark.isPrefixOf n then .issued
    else if Reg.savedMark.isPrefixOf n then .saved
    else .temp

theorem ofName_issued (k : Nat) : ofName (Reg.issued k).name = .issued := by
  rw [ofName, Reg.ofName_issued]
  exact if_pos (List.isPrefixOf_iff_prefix.mpr (prefix_append _ _))

theorem ofName_saved (q : MachineReg) : ofName (Reg.saved (.machine q)).name = .saved := by
  cases q <;> decide

/-- A temporary whose name may stand in code is known as one, and keeps its name. -/
theorem ofName_of_checkTemp {func t : Name} (h : checkTemp func t = .ok ()) :
    ofName t = .temp ∧ (Reg.ofName t).name = t := by
  obtain ⟨hname, hissued, hsaved⟩ := marks_of_checkTemp h
  rw [ofName, hname]
  exact ⟨by simp [hissued, hsaved], rfl⟩

variable {func n : Name} {temps : List Name} {supply : Supply} {o : Origin}

theorem Names.ofName_eq (htemps : ∀ t ∈ temps, checkTemp func t = .ok ())
    (h : o.Names temps supply n) : ofName n = o := by
  cases o with
  | machine =>
    obtain ⟨q, rfl⟩ := h
    rw [ofName, Reg.ofName_machine]
  | pointer =>
    obtain rfl : n = _ := h
    decide
  | temp => exact (ofName_of_checkTemp (htemps n h)).1
  | saved =>
    obtain ⟨q, _, rfl⟩ := h
    exact ofName_saved q
  | issued =>
    obtain ⟨k, _, rfl⟩ := h
    exact ofName_issued k

theorem Names.mono {supply' : Supply} (hle : supply.issued ≤ supply'.issued)
    (h : o.Names temps supply n) : o.Names temps supply' n := by
  cases o with
  | issued =>
    obtain ⟨k, hk, rfl⟩ := h
    exact ⟨k, Nat.lt_of_lt_of_le hk hle, rfl⟩
  | _ => exact h

end Origin

/-- Every register that the code names has an origin and is the one of its name, and none has a
name that the supply issues later. -/
structure Traced (temps : List Name) (supply : Supply) (code : List Instr) : Prop where
  proper {x : Instr} (hx : x ∈ code) {r : Reg} (hr : r ∈ x.namedRegs) : r = .ofName r.name
  origin {x : Instr} (hx : x ∈ code) {r : Reg} (hr : r ∈ x.namedRegs) :
    ∃ o : Origin, o.Names temps supply r.name
  fresh {x : Instr} (hx : x ∈ code) {r : Reg} (hr : r ∈ x.namedRegs) {k : Nat}
    (hk : supply.issued ≤ k) : r.name ≠ (Reg.issued k).name

/-- The shape of code whose registers have origins. -/
def tracing (temps : List Name) (supply : Supply) : Shape where
  reg r := Workable r ∧ ∃ o : Origin, o.Names temps supply r.name
  frame _ := True
  symbol _ := True
  stack _ := True

section

variable {func : Name} {temps : List Name} {supply supply' : Supply} {code code' : List Instr}

theorem tracing_le (hle : supply.issued ≤ supply'.issued) :
    (tracing temps supply).Le (tracing temps supply') where
  reg h := ⟨h.1, h.2.imp fun _ h => h.mono hle⟩
  frame _ := trivial
  symbol _ := trivial
  stack _ := trivial

theorem reg_tracing_issued {k : Nat} (hk : k < supply.issued) :
    (tracing temps supply).reg (.issued k) :=
  ⟨workable_issued k, .issued, k, hk, rfl⟩

theorem worksOnMachine_tracing : WorksOnMachine (tracing temps supply) := fun q hsp hbp =>
  ⟨workable_machine hsp hbp, .machine, q, rfl⟩

/-- Code of that shape names no register of another origin. -/
theorem traced_of_shape (htemps : ∀ t ∈ temps, checkTemp func t = .ok ())
    (h : (tracing temps supply).Code code) : Traced temps supply code := by
  have hnamed {x : Instr} (hx : x ∈ code) {r : Reg} (hr : r ∈ x.namedRegs) :
      r.Proper ∧ ∃ o : Origin, o.Names temps supply r.name := by
    rcases (h x hx).reg_of_named hr with hr | ⟨q, rfl⟩ | rfl
    · exact ⟨hr.1.proper, hr.2⟩
    · exact ⟨proper_machine q, .machine, q, rfl⟩
    · exact ⟨proper_rip, .pointer, rfl⟩
  refine ⟨fun hx _ hr => (hnamed hx hr).1.symm, fun hx _ hr => (hnamed hx hr).2, ?_⟩
  intro x hx r hr k hk hname
  obtain ⟨_, o, ho⟩ := hnamed hx hr
  rw [hname] at ho
  -- a name tells its origin, so the register would have been issued before
  obtain rfl : Origin.issued = o := (Origin.ofName_issued k).symm.trans (ho.ofName_eq htemps)
  obtain ⟨j, hj, hjk⟩ := ho
  have := Reg.issued_inj.mp (congrArg Reg.abstract hjk)
  omega

theorem tracing_keepCalleeSaved (h : (tracing temps supply).Code code) :
    (tracing temps supply).Code (keepCalleeSaved code) := by
  have hpointers : ∀ q ∈ MachineReg.calleeSaved, q ≠ .rsp ∧ q ≠ .rbp := by decide
  have hboth {q : MachineReg} (hq : q ∈ MachineReg.calleeSaved) :
      (tracing temps supply).reg (.machine q) ∧ (tracing temps supply).reg (.saved (.machine q)) :=
    ⟨worksOnMachine_tracing q (hpointers q hq).1 (hpointers q hq).2, workable_saved q, .saved, q, hq,
      rfl⟩
  intro x hx
  simp only [keepCalleeSaved, mem_append, mem_map, mem_singleton] at hx
  rcases hx with ((⟨q, hq, rfl⟩ | hx) | ⟨q, hq, rfl⟩) | rfl
  · exact .copy (hboth hq).2 (hboth hq).1
  · exact h x hx
  · exact .copy (hboth hq).1 (hboth hq).2
  · exact .comment _

/-- One round of spilling adds issued registers only. -/
theorem tracing_spill {B : Shape} {slots : Slots} {rs : List Reg}
    (hbetween : Between B slots supply.issued code) (hrs : CanSpill B slots supply.issued rs)
    (hnodup : (rs.map Reg.name).Nodup) (h : (tracing temps supply).Code code)
    (hrun : (Spilling.code (addSlots slots rs).2 code).run supply = .ok (code', supply')) :
    supply.issued ≤ supply'.issued ∧ (tracing temps supply').Code code' := by
  have hext := addSlots_extends hbetween.dense hnodup fun r hr => (hrs r hr).1.2.2.1
  have hpointers : KeepsPointers (tracing temps supply) (addSlots slots rs).2 :=
    { hrs.keepsPointers (p := fun _ => True) hext with rip := fun h => h.1.rip rfl }
  obtain ⟨out, last, hout, hle, hcode⟩ := Spilling.code_yields supply (addSlots slots rs).2 code
    (P := fun k y => (tracing temps ⟨k⟩).Allows y) (fun hle h => h.mono (tracing_le hle)) (by
      intro x hx begun hbegun
      refine (Spilling.instr_standsFor_of_allows begun hpointers (h x hx)).imp ?_
      intro ended block hended hblock y hy
      refine (hblock.shape_spilledTo hpointers (h x hx) hbegun y hy).mono ⟨?_, fun _ => trivial,
        fun _ => trivial, fun _ => trivial⟩
      rintro r (⟨hr, _⟩ | ⟨j, ⟨_, hj⟩, rfl⟩)
      · exact (tracing_le (Nat.le_trans hbegun hended)).reg hr
      · exact reg_tracing_issued hj)
  obtain ⟨rfl, rfl⟩ := Prod.mk.inj (Except.ok.inj (hout.symm.trans hrun))
  exact ⟨hle, hcode⟩

/-- So do all rounds together. -/
theorem tracing_spills {B : Shape} {returns : Bool} {slots slots' : Slots}
    (hspills : Spills returns slots supply code slots' supply' code')
    (hbetween : Between B slots supply.issued code) (h : (tracing temps supply).Code code) :
    supply.issued ≤ supply'.issued ∧ (tracing temps supply').Code code' := by
  induction hspills with
  | none => exact ⟨Nat.le_refl _, h⟩
  | round hround _ hcode _ ih =>
    obtain ⟨hcan, hnodup⟩ := hbetween.canSpill hround
    obtain ⟨code₁, supply₁, hcode₁, hnext⟩ := hbetween.spill hcan hnodup
    obtain ⟨rfl, rfl⟩ := Prod.mk.inj (Except.ok.inj (hcode₁.symm.trans hcode))
    obtain ⟨hle, hshape⟩ := tracing_spill hbetween hcan hnodup h hcode
    obtain ⟨hle', hshape'⟩ := ih hnext hshape
    exact ⟨Nat.le_trans hle hle', hshape'⟩

end

section

variable {fn : Func NodeStmt} {body : List Instr} {memo : Memo}

/-- Covered code, with the moves of the arguments before it, has registers with origins. -/
theorem tracing_covered (h : (coverBody fn.name fn.body).run.run .empty = (.ok body, memo))
    (htemps : ∀ t ∈ (fn.map NodeStmt.plain).temps, checkTemp fn.name t = .ok ()) :
    (tracing (fn.map NodeStmt.plain).temps memo.supply).Code (argumentMoves fn.args ++ body) := by
  have hreg (supply : Supply) {t : Name} (ht : t ∈ fn.args ∨ ∃ s ∈ fn.body, t ∈ s.plain.temps) :
      (tracing (fn.map NodeStmt.plain).temps supply).reg (.ofName t) := by
    have hcheck := htemps t (mem_temps.mpr ht)
    refine ⟨(reg_of_checkTemp (B := tracing [] ⟨0⟩) hcheck).1, .temp, ?_⟩
    show (Reg.ofName t).name ∈ _
    rw [(Origin.ofName_of_checkTemp hcheck).2]
    exact mem_temps.mpr ht
  have hbody := shape_coverBody (S := tracing (fn.map NodeStmt.plain).temps ⟨0⟩)
    worksOnMachine_tracing h fun s hs => admitsStmt_of_temps
      (fun t ht => hreg _ (.inr ⟨s, hs, ht⟩)) (fun _ _ => trivial) fun _ _ _ _ => ⟨trivial, trivial⟩
  rw [Shape.code_append]
  refine ⟨shape_argumentMoves worksOnMachine_tracing (fun a ha => hreg _ (.inl ha))
    fun _ => trivial, hbody.mono ⟨?_, fun _ => trivial, fun _ => trivial, fun _ => trivial⟩⟩
  rintro r (hr | ⟨k, hk, rfl⟩)
  · exact (tracing_le (Nat.zero_le _)).reg hr
  · exact reg_tracing_issued hk

end

/-- Registers never capture each other. The temporaries of a function are its arguments and what
its statements mention, each once. If they have names that they may have, a name has one origin,
and every register of the function's code has an origin and no name that is issued later: in the
covered code, in the tidied code, with the moves that keep registers around either, and after any
rounds of spilling. -/
theorem registers_traced {fn : Func NodeStmt} {temps : List Name}
    (htemps : (fn.map NodeStmt.plain).temps = temps) :
    (temps.Nodup ∧ ∀ t, t ∈ temps ↔ t ∈ fn.args ∨ ∃ s ∈ fn.body, s.plain.Mentions t) ∧
    (temps.forM (checkTemp fn.name) = .ok () →
      (∀ supply supply' (o o' : Origin) n,
        o.Names temps supply n → o'.Names temps supply' n → o = o') ∧
      ∀ body memo, (coverBody fn.name fn.body).run.run .empty = (.ok body, memo) →
        ∀ code, code = argumentMoves fn.args ++ body ∨
            (∃ removeComments, Tidy.tidy removeComments (argumentMoves fn.args ++ body) = .ok code) →
          Traced temps memo.supply code ∧ Traced temps memo.supply (keepCalleeSaved code) ∧
          ∀ returns slots supply code',
            Spills returns ∅ memo.supply (keepCalleeSaved code) slots supply code' →
              memo.supply.issued ≤ supply.issued ∧ Traced temps supply code') := by
  subst htemps
  refine ⟨⟨nodup_eraseDups _, fun t => ?_⟩, fun h => ?_⟩
  · rw [mem_temps]
    simp only [Stmt.mem_temps]
  have hchecked := forM_eq_ok.mp h
  constructor
  · intro supply supply' o o' n ho ho'
    rw [← ho.ofName_eq hchecked, ho'.ofName_eq hchecked]
  · intro body memo hrun code hcode
    have htracing := tracing_covered hrun hchecked
    have hbetween := (suits_framedBy (p := fun _ => True) (fun _ _ => trivial) hchecked).covered hrun
    have hboth : (tracing (fn.map NodeStmt.plain).temps memo.supply).Code code ∧
        (between (framedBy fun _ => True) ∅ memo.supply.issued (¬ SavedName ·)).Code code := by
      rcases hcode with rfl | ⟨_, htidy⟩
      · exact ⟨htracing, hbetween⟩
      · exact ⟨htracing.tidy htidy, hbetween.tidy htidy⟩
    have hkept := tracing_keepCalleeSaved hboth.1
    refine ⟨traced_of_shape hchecked hboth.1, traced_of_shape hchecked hkept, ?_⟩
    intro returns slots supply code' hspills
    obtain ⟨hle, hshape⟩ := tracing_spills hspills (between_keepCalleeSaved hboth.2) hkept
    exact ⟨hle, traced_of_shape hchecked hshape⟩

def tripling : Func NodeStmt where
  name := "f"
  args := ["x"]
  returns := true
  body := NodeStmt.numberAll 0 [.ret (some (.binary .mul (.temp "x") (.const 3)))]

theorem tripling_traced : tripling.args.forM (checkTemp tripling.name) = .ok () ∧
    ∃ body memo, (coverBody tripling.name tripling.body).run.run .empty = (.ok body, memo) ∧
      body.length = 6 ∧
        Traced tripling.args memo.supply (keepCalleeSaved (argumentMoves tripling.args ++ body)) := by
  have htemps : (tripling.map NodeStmt.plain).temps = tripling.args := by decide +kernel
  have hcheck : tripling.args.forM (checkTemp tripling.name) = .ok () := by decide +kernel
  have hlength : ((coverBody tripling.name tripling.body).run.run .empty).1.toOption.map
      List.length = some 6 := by decide +kernel
  rcases hrun : (coverBody tripling.name tripling.body).run.run .empty with ⟨_ | body, memo⟩
  · rw [hrun] at hlength
    cases hlength
  · rw [hrun] at hlength
    refine ⟨hcheck, body, memo, rfl, Option.some.inj hlength, ?_⟩
    exact (((registers_traced htemps).2 hcheck).2 body memo hrun _ (.inl rfl)).2.1

end Generate

end X64Backend
