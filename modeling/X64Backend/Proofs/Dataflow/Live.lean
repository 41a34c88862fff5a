import X64Backend.Proofs.Dataflow.Settling
import X64Backend.Proofs.Dataflow.Uses
import X64Backend.Proofs.Names

/-! # Live registers

Registers are numbered by name, each under one number only, so what the sweeps say of
numbers holds of registers: a register that an instruction reads is live before it, and one
live behind it is live before it unless the instruction writes it.
-/

namespace X64Backend.Dataflow

open Asm List

variable {returns : Bool} {code : List Instr} {x : Instr} {a : List Access}

namespace Vars

/-- The numbers of names are those of the registers that have them. -/
def Fits (v : Vars) : Prop :=
  ∀ (n : Name) (k : Nat), v.ids[n]? = some k ↔ ∃ r : Reg, v.regs[k]? = some r ∧ r.name = n

section

variable {v : Vars} {r q : Reg} {rs : List Reg} {k : Nat}

theorem Fits.id?_eq_some (h : v.Fits) :
    v.id? r = some k ↔ ∃ q, v.regs[k]? = some q ∧ q.name = r.name := h r.name k

theorem Fits.id?_lt (h : v.Fits) (hk : v.id? r = some k) : k < v.size := by
  obtain ⟨q, hq, _⟩ := h.id?_eq_some.mp hk
  exact (Array.getElem?_eq_some_iff.mp hq).1

theorem Fits.id?_of_getElem? (h : v.Fits) (hk : v.regs[k]? = some r) : v.id? r = some k :=
  h.id?_eq_some.mpr ⟨r, hk, rfl⟩

/-- A register with a known name is known, or it gets the next number. -/
theorem add_cases (v : Vars) (r : Reg) :
    (∃ k, v.ids[r.name]? = some k ∧ (v.add r).2 = v) ∨
      v.ids[r.name]? = none ∧
        (v.add r).2 = ⟨v.regs.push r, v.ids.insert r.name v.regs.size⟩ := by
  cases h : v.ids[r.name]? with
  | some k => exact .inl ⟨k, rfl, by simp [add, h]⟩
  | none => exact .inr ⟨rfl, by simp [add, h]⟩

theorem Fits.add (h : v.Fits) (r : Reg) : (v.add r).2.Fits := by
  rcases v.add_cases r with ⟨_, _, heq⟩ | ⟨hnew, heq⟩
  · rwa [heq]
  · rw [heq]
    intro n k
    simp only [Std.TreeMap.getElem?_insert, Std.LawfulEqCmp.compare_eq_iff_eq, Array.getElem?_push]
    constructor
    · intro hk
      split at hk
      next hn =>
        cases hk
        exact ⟨r, by simp, hn⟩
      next =>
        obtain ⟨q, hq, hname⟩ := (h n k).mp hk
        have hlt := (Array.getElem?_eq_some_iff.mp hq).1
        exact ⟨q, by rw [if_neg (by omega), hq], hname⟩
    · rintro ⟨q, hq, rfl⟩
      split at hq
      next hk =>
        cases hq
        rw [if_pos rfl, hk]
      next hk =>
        have hid := (h q.name k).mpr ⟨q, hq, rfl⟩
        rw [if_neg, hid]
        intro heq
        rw [heq, hid] at hnew
        cases hnew

theorem addAll_cons (v : Vars) (r : Reg) (rs : List Reg) :
    v.addAll (r :: rs) = (v.add r).2.addAll rs := rfl

theorem Fits.addAll (h : v.Fits) (rs : List Reg) : (v.addAll rs).Fits := by
  induction rs generalizing v with
  | nil => exact h
  | cons r rs ih => exact ih (h.add r)

theorem getElem?_add (hk : v.regs[k]? = some q) (r : Reg) : (v.add r).2.regs[k]? = some q := by
  rcases v.add_cases r with ⟨_, _, heq⟩ | ⟨_, heq⟩
  · rwa [heq]
  · grind

/-- Registers keep their numbers when more are added. -/
theorem getElem?_addAll (hk : v.regs[k]? = some q) (rs : List Reg) :
    (v.addAll rs).regs[k]? = some q := by
  induction rs generalizing v with
  | nil => exact hk
  | cons r rs ih => exact ih (getElem?_add hk r)

/-- Registers that were added have numbers. -/
theorem Fits.exists_id? (h : v.Fits) (hr : r ∈ rs) : ∃ k, (v.addAll rs).id? r = some k := by
  induction rs generalizing v with
  | nil => cases hr
  | cons q rs ih =>
    rcases mem_cons.mp hr with rfl | hr
    · obtain ⟨k, hk⟩ : ∃ k, (v.add r).2.ids[r.name]? = some k := by
        rcases v.add_cases r with ⟨k, hk, heq⟩ | ⟨_, heq⟩
        · exact ⟨k, by rw [heq, hk]⟩
        · exact ⟨v.regs.size, by rw [heq]; simp⟩
      obtain ⟨q, hq, hname⟩ := (h.add r r.name k).mp hk
      exact ⟨k, ((h.add r).addAll rs).id?_eq_some.mpr ⟨q, getElem?_addAll hq rs, hname⟩⟩
    · exact ih (h.add q) hr

theorem mem_of_getElem?_addAll (hk : (v.addAll rs).regs[k]? = some q) :
    v.regs[k]? = some q ∨ q ∈ rs := by
  induction rs generalizing v with
  | nil => exact .inl hk
  | cons r rs ih =>
    rw [addAll_cons] at hk
    rcases ih hk with hk | hmem
    · rcases v.add_cases r with ⟨_, _, heq⟩ | ⟨_, heq⟩
      · exact .inl (heq ▸ hk)
      · grind
    · exact .inr (mem_cons_of_mem r hmem)

end

theorem fits_machine : machine.Fits := by
  apply Fits.addAll
  intro n k
  simp

/-- Machine registers have the first numbers. -/
theorem getElem?_machine (r : MachineReg) : machine.regs[(r.index : Nat)]? = some (.machine r) := by
  cases r <;> decide +kernel

theorem eq_machine_of_getElem? {k : Nat} {r : Reg} (h : machine.regs[k]? = some r) :
    ∃ q, r = .machine q := by
  rcases mem_of_getElem?_addAll h with h | h
  · simp at h
  · obtain ⟨q, _, rfl⟩ := mem_map.mp h
    exact ⟨q, rfl⟩

end Vars

theorem contains_foldl_insert (ks : List Nat) (s : KeySet) (k : Nat) :
    (ks.foldl KeySet.insert s).contains k = true ↔ s.contains k = true ∨ k ∈ ks := by
  induction ks generalizing s with
  | nil => simp
  | cons j ks ih =>
    rw [foldl_cons, ih, KeySet.contains_insert, mem_cons, Bool.or_eq_true,
      decide_eq_true_eq, or_assoc]

theorem contains_ofList (ks : List Nat) (k : Nat) :
    (KeySet.ofList ks).contains k = true ↔ k ∈ ks := by
  simp [KeySet.ofList, contains_foldl_insert]

theorem contains_keysOf {vars : Vars} {rs : List Reg} {k : Nat} :
    (keysOf vars rs).contains k = true ↔ ∃ r ∈ rs, vars.id? r = some k := by
  simp [keysOf, contains_ofList]

/-- The result register is read where a function that gives a value ends. -/
def resultUse (returns : Bool) : List Access := if returns then [.use .rax] else []

/-- The accesses of code, instruction by instruction. -/
theorem allAccesses_spec {as : List (List Access)} (h : allAccesses returns code = .ok as) :
    as.length = code.length ∧ ∀ i x, code[i]? = some x → ∃ a, accesses returns x = .ok a ∧
      as[i]? = some (if i + 1 = code.length then a ++ resultUse returns else a) := by
  induction code generalizing as with
  | nil =>
    cases h
    exact ⟨rfl, fun i x hx => nomatch hx⟩
  | cons x rest ih =>
    cases rest with
    | nil =>
      obtain ⟨a, ha, h⟩ := bind_eq_ok.mp h
      cases pure_eq_ok.mp h
      refine ⟨rfl, ?_⟩
      intro i y hy
      cases i with
      | succ i => cases hy
      | zero =>
        cases hy
        exact ⟨a, ha, rfl⟩
    | cons y rest =>
      obtain ⟨a, ha, h⟩ := bind_eq_ok.mp h
      obtain ⟨as', has', h⟩ := bind_eq_ok.mp h
      cases pure_eq_ok.mp h
      obtain ⟨hlen, hat⟩ := ih has'
      refine ⟨by simp [hlen], ?_⟩
      intro i z hz
      cases i with
      | zero =>
        cases hz
        exact ⟨a, ha, by simp⟩
      | succ i =>
        obtain ⟨b, hb, hi⟩ := hat i z hz
        exact ⟨b, hb, by simpa using hi⟩

/-- What a return reads depends on the function; all other accesses do not. -/
theorem used_of_accesses (h : accesses returns x = .ok a) :
    a.filterMap Access.used? = uses x ∨
      x = .ret ∧ returns = true ∧ a.filterMap Access.used? = [.rax] := by
  cases x with
  | ret =>
    cases returns with
    | false =>
      cases h
      exact .inl rfl
    | true =>
      cases h
      exact .inr ⟨rfl, rfl, rfl⟩
  | absent => cases h
  | _ =>
    left
    cases h
    rfl

theorem defined_of_accesses (h : accesses returns x = .ok a) :
    a.filterMap Access.defined? = defs x := by
  cases x with
  | ret =>
    cases h
    cases returns <;> rfl
  | absent => cases h
  | _ =>
    cases h
    rfl

/-- The registers that an instruction of code reads, with the result where the code ends. -/
def ReadAt (code : List Instr) (returns : Bool) (i : Nat) (x : Instr) (r : Reg) : Prop :=
  r ∈ uses x ∨ returns = true ∧ (x = .ret ∨ i + 1 = code.length) ∧ r = .rax

namespace Liveness

/-- What is known of a point: its successors, its equation, and its registers by number. -/
structure Describes (live : Liveness) (code : List Instr) (returns : Bool) (i : Nat) (x : Instr)
    (p : Point) : Prop where
  succs : successorsAt (labelTable code) code.length i x = .ok p.succs
  before : live.before.getD i .empty = p.liveBefore live.before
  behind : live.behind[i]? = some (p.liveBehind live.before)
  uses {k : Nat} : p.uses.contains k = true ↔
    ∃ r, ReadAt code returns i x r ∧ live.vars.id? r = some k
  defs {k : Nat} : p.defs.contains k = true ↔ ∃ r ∈ defs x, live.vars.id? r = some k

/-- The liveness of code: the registers are numbered, those of the machine first, and every
point is described. -/
structure Solves (live : Liveness) (code : List Instr) (returns : Bool) : Prop where
  fits : live.vars.Fits
  machine (r : MachineReg) : live.vars.regs[(r.index : Nat)]? = some (.machine r)
  known {k : Nat} {r : Reg} (hk : live.vars.regs[k]? = some r) : (∃ q, r = .machine q) ∨
    ∃ x ∈ code, r ∈ uses x ∨ r ∈ defs x
  numbered {i : Nat} {x : Instr} {r : Reg} (hx : code[i]? = some x)
    (hr : ReadAt code returns i x r ∨ r ∈ defs x) : ∃ k, live.vars.id? r = some k
  size : live.points.size = code.length
  width : live.before.size = code.length
  length : live.behind.size = code.length
  below {i k : Nat} (hk : (live.before.getD i .empty).contains k = true) : k < live.vars.size
  point {i : Nat} {x : Instr} (hx : code[i]? = some x) :
    ∃ p, live.points[i]? = some p ∧ live.Describes code returns i x p

end Liveness

theorem mem_map_reg {r : Reg} :
    r ∈ a.map Access.reg ↔ r ∈ a.filterMap Access.used? ∨ r ∈ a.filterMap Access.defined? := by
  simp only [mem_map, mem_filterMap]
  constructor
  · rintro ⟨x, hx, rfl⟩
    cases x with
    | use q => exact .inl ⟨_, hx, rfl⟩
    | define q => exact .inr ⟨_, hx, rfl⟩
  · rintro (⟨x, hx, hr⟩ | ⟨x, hx, hr⟩)
    · cases x with
      | use q => exact ⟨_, hx, Option.some.inj hr⟩
      | define q => cases hr
    · cases x with
      | use q => cases hr
      | define q => exact ⟨_, hx, Option.some.inj hr⟩

/-- The accesses at a position of code. -/
def accessesAt (code : List Instr) (returns : Bool) (i : Nat) (a : List Access) : List Access :=
  if i + 1 = code.length then a ++ resultUse returns else a

theorem used_accessesAt {i : Nat} (h : accesses returns x = .ok a) {r : Reg} :
    r ∈ (accessesAt code returns i a).filterMap Access.used? ↔ ReadAt code returns i x r := by
  have hown : r ∈ a.filterMap Access.used? ↔
      r ∈ uses x ∨ returns = true ∧ x = .ret ∧ r = .rax := by
    grind [used_of_accesses, Access.used?, uses, accesses]
  have hresult : r ∈ (resultUse returns).filterMap Access.used? ↔ returns = true ∧ r = .rax := by
    cases returns <;> simp [resultUse, Access.used?]
  unfold accessesAt ReadAt
  split
  next hlast =>
    rw [filterMap_append, mem_append, hown, hresult]
    constructor
    · grind
    · rintro (hr | ⟨hret, _, hr⟩)
      · exact .inl (.inl hr)
      · exact .inr ⟨hret, hr⟩
  next hlast =>
    rw [hown]
    simp [hlast]

theorem defined_accessesAt {i : Nat} (h : accesses returns x = .ok a) :
    (accessesAt code returns i a).filterMap Access.defined? = defs x := by
  grind [resultUse, Access.defined?, accessesAt,
    defined_of_accesses]

/-- The analysis of code gives its liveness. -/
theorem analyze_solves {live : Liveness} (h : analyze code returns = .ok live) :
    live.Solves code returns := by
  obtain ⟨as, has, h⟩ := bind_eq_ok.mp h
  obtain ⟨succs, hsuccs, h⟩ := bind_eq_ok.mp h
  cases pure_eq_ok.mp h
  obtain ⟨hlength, haccess⟩ := allAccesses_spec has
  obtain ⟨hsize, hsucc⟩ := successors_spec hsuccs
  have hfits := Vars.fits_machine.addAll (as.flatten.map Access.reg)
  generalize hvars : Vars.machine.addAll (as.flatten.map Access.reg) = vars at hfits
  have hpoints : (pointsOf vars as succs).size = code.length := by
    simp [pointsOf, hlength, hsize]
  -- Each point is made of what the instruction there accesses.
  have hpoint : ∀ i x, code[i]? = some x → ∃ a, accesses returns x = .ok a ∧
      accessesAt code returns i a ∈ as ∧ (pointsOf vars as succs)[i]? = some
        ⟨succs.getD i [], keysOf vars ((accessesAt code returns i a).filterMap Access.used?),
          keysOf vars ((accessesAt code returns i a).filterMap Access.defined?)⟩ := by
    intro i x hx
    obtain ⟨a, ha, hi⟩ := haccess i x hx
    have hlt : i < succs.size := hsize ▸ (List.getElem?_eq_some_iff.mp hx).1
    refine ⟨a, ha, mem_of_getElem? hi, ?_⟩
    rw [pointsOf, getElem?_toArray, getElem?_zipWith, hi, Array.getElem?_toList,
      Array.getElem?_eq_getElem hlt, Array.getD, dif_pos hlt]
    rfl
  -- Only numbers that registers have are in the sets, so settling comes to an end.
  have hbound : ∀ p ∈ pointsOf vars as succs, ∀ k, p.uses.contains k = true → k < vars.size := by
    intro p hp k hk
    obtain ⟨i, hi, rfl⟩ := Array.getElem_of_mem hp
    obtain ⟨a, _, _, hget⟩ := hpoint i code[i] (getElem?_eq_getElem (hpoints ▸ hi))
    rw [Array.getElem?_eq_getElem hi] at hget
    rw [Option.some.inj hget, contains_keysOf] at hk
    obtain ⟨r, _, hr⟩ := hk
    exact hfits.id?_lt hr
  generalize hbefore : settle (pointsOf vars as succs) _ _ = before
  obtain ⟨hwidth, hbelow, hequation⟩ := settle_spec hbound hbefore
  have hdescribes : ∀ {i x}, code[i]? = some x → ∃ p, (pointsOf vars as succs)[i]? = some p ∧
      Liveness.Describes ⟨vars, pointsOf vars as succs, before,
        (pointsOf vars as succs).map fun p => p.liveBehind before⟩ code returns i x p := by
    intro i x hx
    obtain ⟨a, ha, _, hget⟩ := hpoint i x hx
    refine ⟨_, hget, hsucc i x hx, hequation i _ hget, ?_, ?_, ?_⟩
    · rw [Array.getElem?_map, hget]
      rfl
    · intro k
      rw [contains_keysOf]
      simp only [used_accessesAt ha]
    · intro k
      rw [contains_keysOf, defined_accessesAt ha]
  constructor
  · exact hfits
  · intro r
    rw [← hvars]
    exact Vars.getElem?_addAll (Vars.getElem?_machine r) _
  -- A register gets a number because it is the machine's or because code names it.
  · intro k r hk
    rw [← hvars] at hk
    rcases Vars.mem_of_getElem?_addAll hk with hk | hmem
    · exact .inl (Vars.eq_machine_of_getElem? hk)
    rw [map_flatten, mem_flatten] at hmem
    obtain ⟨_, hmem, hr⟩ := hmem
    obtain ⟨b, hb, rfl⟩ := mem_map.mp hmem
    obtain ⟨i, hi, rfl⟩ := getElem_of_mem hb
    have hx := getElem?_eq_getElem (hlength ▸ hi)
    obtain ⟨a, ha, hget⟩ := haccess i _ hx
    rw [getElem?_eq_getElem hi] at hget
    rw [Option.some.inj hget, mem_map_reg, ← accessesAt, used_accessesAt ha,
      defined_accessesAt ha] at hr
    rcases hr with (hr | ⟨_, _, rfl⟩) | hr
    · exact .inr ⟨_, mem_of_getElem? hx, .inl hr⟩
    · exact .inl ⟨_, rfl⟩
    · exact .inr ⟨_, mem_of_getElem? hx, .inr hr⟩
  · intro i x r hx hr
    obtain ⟨a, ha, hmem, _⟩ := hpoint i x hx
    show ∃ k, vars.id? r = some k
    rw [← hvars]
    apply Vars.fits_machine.exists_id?
    rw [map_flatten, mem_flatten]
    refine ⟨_, mem_map_of_mem hmem, mem_map_reg.mpr ?_⟩
    rwa [used_accessesAt ha, defined_accessesAt ha]
  · exact hpoints
  · exact hwidth.trans hpoints
  · simpa using hpoints
  · exact fun hk => hbelow _ _ hk
  · exact hdescribes

end X64Backend.Dataflow
