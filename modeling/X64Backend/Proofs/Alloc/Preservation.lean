import X64Backend.Proofs.Alloc.Completion
import X64Backend.Proofs.Alloc.Lockstep
import X64Backend.Proofs.Machine.Stack

/-! # Allocation preserves meaning

A function's code is put between moves that keep the callee-saved registers, spilled in rounds
until all registers have colours, and finished. The code that comes out runs as the function's
code does: it ends in the same way, with the same output, the same memory but for the slots,
and the same result, and the callee-saved registers hold what they held at the start.
-/

namespace X64Backend.Alloc

open Asm Machine Dataflow List

/-! ## From rounds to the last round -/

section

variable {first mid code : List Instr} {slots : Slots} {supply : Supply} {issued fuel done : Nat}
  {returns : Bool} {result : Allocated} {round : Round} {live : Liveness}

/-- Rounds that come to a result: some that spill, and a last one. -/
theorem exists_lastRound (h : rounds returns fuel done slots supply code = .ok result) :
    ∃ slots' supply' code' round n, Spills returns slots supply code slots' supply' code' ∧
      Round.ofCode returns code' = .ok round ∧ round.spilled = [] ∧
      lastRound n slots' supply' code' round = .ok result := by
  induction fuel generalizing done slots supply code with
  | zero => cases h
  | succ fuel ih =>
    cases hround : Round.ofCode returns code with
    | error d =>
      rw [rounds, hround] at h
      cases h
    | ok round =>
      by_cases hspilled : round.spilled = []
      · rw [rounds_of_spilled_eq_nil hround hspilled] at h
        exact ⟨slots, supply, code, round, done + 1, .none, hround, hspilled, h⟩
      · obtain ⟨⟨code', supply'⟩, hcode⟩ : ∃ p,
            (Spilling.code (addSlots slots round.spilled).2 code).run supply = .ok p := by
          rw [rounds, hround] at h
          simp only [bind, Except.bind] at h
          split at h
          next => cases h
          next p hp => exact ⟨p, hp⟩
        rw [rounds_of_spilled_ne_nil hround hspilled hcode] at h
        obtain ⟨slots', supply', code', last, n, hspills, hlast⟩ := ih h
        exact ⟨slots', supply', code', last, n, .round hround hspilled hcode hspills, hlast⟩

/-- A register that is numbered behind the machine's is one that code between rounds names. -/
theorem Stage.nameable (h : Stage first slots issued mid)
    (hfinds : round.Finds live (enclosed slots mid) returns) {k : Nat} {r : Reg}
    (hle : Vars.machineCount ≤ k) (hk : live.vars.regs[k]? = some r) :
    (∀ q, r ≠ .machine q) ∧ Nameable slots issued r := by
  have hmachine := hfinds.ne_machine hle hk
  refine ⟨hmachine, ?_⟩
  rcases hfinds.solves.known hk with ⟨q, rfl⟩ | ⟨x, hx, hr⟩
  · exact absurd rfl (hmachine q)
  · rcases reg_of_fine (h.enclosed_fine hx) hr with hr | ⟨q, rfl⟩
    · exact hr
    · exact absurd rfl (hmachine q)

/-- The register that finishing puts for a register is its colour. -/
theorem Stage.reg_eq_color (hfinds : round.Finds live (enclosed slots mid) returns) {f : Finish}
    (hcolors : round.Tells live f.colors) {k : Nat} {r : Reg} {c : MachineReg}
    (hk : live.vars.regs[k]? = some r) (hc : round.coloring.color? round.work k = some c) :
    f.reg r = .machine c := by
  by_cases hle : Vars.machineCount ≤ k
  · rw [Finish.reg, (hcolors _ _).mpr ⟨k, r, hle, hk, rfl, hc⟩]
  · obtain ⟨q, hq, rfl⟩ := (isMachine_iff hfinds.solves hk).mp
      (decide_eq_true (Nat.lt_of_not_le hle))
    rw [hq, hfinds.color_machine q] at hc
    rw [hfinds.reg_machine hcolors, Option.some.inj hc]

/-- The last round finishes the code of the last stage. -/
theorem Stage.closing (h : Stage first slots issued mid)
    (hround : Round.ofCode returns (enclosed slots mid) = .ok round) (hspilled : round.spilled = [])
    (hsmall : slots.size < 2 ^ 60) {n : Nat}
    (hresult : lastRound n slots supply (enclosed slots mid) round = .ok result) :
    ∃ C : Closing, C.first = first ∧ C.mid = mid ∧ C.f.slots = slots ∧ C.returns = returns ∧
      C.f.code C.code = .ok result.code ∧ C.f.kept.length = result.slots := by
  obtain ⟨live, hfinds⟩ := Round.ofCode_finds hround
  obtain ⟨colors, hok, hcolors, hlookup⟩ := hfinds.colors_spec hspilled
  obtain ⟨_, hok', hresult⟩ := bind_eq_ok.mp hresult
  cases hok.symm.trans hok'
  obtain ⟨out, hout, hresult⟩ := bind_eq_ok.mp hresult
  obtain rfl := pure_eq_ok.mp hresult
  let f : Finish := {
    colors := .ofList colors
    unused := Finish.unusedOf (colors.map Prod.snd)
    slots }
  have htells : round.Tells live f.colors := hcolors
  have hnotSpilled : ∀ k, round.work.rootOf k ∉ round.coloring.spilled := by
    rw [hfinds.coloring_spilled hspilled]
    exact fun _ => not_mem_nil
  refine ⟨{
    first, issued, mid, returns, live, f
    stage := h
    small := hsmall
    solves := hfinds.solves
    unused := fun u hu => (mem_filter.mp hu).1
    unusedColor := ?_
    palette := ?_
    nameable := ?_
    color := ?_
    apart := ?_ }, rfl, rfl, rfl, rfl, hout, rfl⟩
  · intro m c hc hunused
    have hmem : c ∈ colors.map Prod.snd := mem_map_of_mem (hlookup _ _ hc)
    have := (mem_filter.mp hunused).2
    simp [hmem] at this
  · intro m c hc
    obtain ⟨k, r, hle, hk, _, hkc⟩ := (htells _ _).mp hc
    refine hfinds.color_mem_palette hspilled ?_ hle (Array.getElem?_eq_some_iff.mp hk).1 hkc
    -- No copy names the stack pointer or the frame pointer.
    intro d s hmov r hr
    have hfine := h.enclosed_fine hmov
    have hwork : Workable r := by
      simp only [mem_cons, not_mem_nil, or_false] at hr
      rcases hr with rfl | rfl
      · exact hfine.1.workable
      · exact hfine.2.workable
    exact ⟨hwork.name_ne (proper_machine .rsp) hwork.rsp,
      hwork.name_ne (proper_machine .rbp) hwork.rbp⟩
  · intro m c hc
    obtain ⟨k, r, hle, hk, hname, _⟩ := (htells _ _).mp hc
    exact ⟨r, hname, h.nameable hfinds hle hk⟩
  · intro x r hx hr
    by_cases hm : IsMachine r
    · exact .inl hm
    · have hne : ∀ q, r ≠ .machine q := fun q hq => hm ⟨q, hq⟩
      have hname := (reg_of_fine (h.enclosed_fine hx) hr).resolve_right hm
      obtain ⟨_, c, _, _, _, hc⟩ :=
        exists_colored hfinds hspilled htells hx hr hname.workable hne
      exact .inr ⟨c, hc⟩
  -- The ends of an edge got different colours, and their registers have those.
  · intro a b r q hedge ha hb
    obtain ⟨p, p', hp, hp', hne⟩ := hfinds.proper.apart hedge (hnotSpilled a) (hnotSpilled b)
    rw [Stage.reg_eq_color hfinds htells ha hp, Stage.reg_eq_color hfinds htells hb hp']
    exact fun heq => hne (Reg.machine.inj heq)

end

/-! ## Where runs start -/

/-- Registers can hold any words that are asked for. -/
theorem exists_registers {α : Type} (key : α → Reg) (word : α → Int64) (as : List α)
    (hinj : ∀ a ∈ as, ∀ b ∈ as, key a = key b → a = b) (regs : Registers) :
    ∃ regs' : Registers, (∀ a ∈ as, regs'.get (key a) = word a) ∧
      ∀ r, (∀ a ∈ as, r ≠ key a) → regs'.get r = regs.get r := by
  induction as with
  | nil => exact ⟨regs, fun _ ha => absurd ha not_mem_nil, fun _ _ => rfl⟩
  | cons a as ih =>
    have hmem : ∀ {b}, b ∈ as → b ∈ a :: as := fun hb => mem_cons_of_mem a hb
    obtain ⟨regs', hword, hother⟩ := ih fun b hb c hc => hinj b (hmem hb) c (hmem hc)
    refine ⟨regs'.set (key a) (word a), fun b hb => ?_, fun r hr => ?_⟩
    · grind [Registers.get_set, mem_cons_self]
    · grind [Registers.get_set, mem_cons_self]

namespace Closing

variable {C : Closing} {r : Reg} {i : Nat}

/-- What is live has a colour or is of the machine. -/
theorem color_of_live (hr : r.Proper) (h : C.live.LiveBefore i r) :
    IsMachine r ∨ ∃ c, C.f.colors[r.name]? = some c := by
  obtain ⟨k, hk, _⟩ := h
  have hreg := getElem?_of_id? C.solves C.named hr hk
  rcases C.solves.known hreg with hmachine | ⟨x, hx, haccess⟩
  · exact .inl hmachine
  · exact C.color hx haccess

theorem final_of_color {c : MachineReg} (hc : C.f.colors[r.name]? = some c) :
    IsMachine (C.f.final r) := by
  by_cases hsaved : ∃ u ∈ C.f.unused, r = .saved (.machine u)
  · obtain ⟨u, hu, rfl⟩ := hsaved
    exact ⟨u, final_saved hu⟩
  · rw [final_of_ne fun u hu heq => hsaved ⟨u, hu, heq⟩, reg_of_color hc]
    exact ⟨c, rfl⟩

/-- A state from which the code before the last round can start, beside a state for finished
code: registers that have slots hold the words of these, and those that have colours hold what
their colours hold. -/
theorem exists_start (C : Closing) (s : State) :
    ∃ regs : Registers, (∀ q, regs.get (.machine q) = s.get (.machine q)) ∧
      (∀ k, 0 < k ∧ k ≤ C.f.kept.length →
        s.memory.read (slotAddress (s.get .rbp) k) = regs.get (C.f.home k)) ∧
      ∀ r, C.Tracks 0 r → regs.get (C.f.final r) = regs.get r := by
  have hcolored : ∀ {n : Name}, n ∈ C.f.colors.keys → ∃ c, C.f.colors[n]? = some c := by
    intro n hn
    exact ⟨_, Std.TreeMap.getElem?_eq_some_getElem (Std.TreeMap.mem_keys.mp hn)⟩
  have hname : ∀ {n : Name}, n ∈ C.f.colors.keys → ∃ r : Reg, r.name = n ∧ Reg.ofName n = r ∧
      ∀ q, r ≠ .machine q := by
    intro n hn
    obtain ⟨c, hc⟩ := hcolored hn
    obtain ⟨r, rfl, hmachine, hr⟩ := C.nameable hc
    exact ⟨r, rfl, hr.workable.proper, hmachine⟩
  obtain ⟨regs, hword, hother⟩ := exists_registers Reg.ofName
    (fun n => s.get (C.f.final (.ofName n))) C.f.colors.keys (by
      intro n hn m hm heq
      obtain ⟨r, rfl, hr, _⟩ := hname hn
      obtain ⟨q, rfl, hq, _⟩ := hname hm
      rw [hr, hq] at heq
      rw [heq]) s.regs
  obtain ⟨regs', hslot, hother'⟩ := exists_registers C.f.home
    (fun k => s.memory.read (slotAddress (s.get .rbp) k)) (List.range' 1 C.f.kept.length) (by
      intro j hj k hk heq
      rw [mem_range'_1] at hj hk
      exact C.homes.inj ⟨hj.1, by omega⟩ ⟨hk.1, by omega⟩ heq) regs
  have hmachine : ∀ q, regs'.get (.machine q) = s.get (.machine q) := by
    intro q
    rw [hother' _ fun k hk => ?_, hother _ fun n hn => ?_]
    · rfl
    · obtain ⟨r, _, hr, hne⟩ := hname hn
      rw [hr]
      exact (hne q).symm
    · grind [C.homes.abstract]
  refine ⟨regs', hmachine, fun k hk => ?_, fun r hr => ?_⟩
  · exact (hslot k (mem_range'_1.mpr ⟨hk.1, by omega⟩)).symm
  · cases hr with
    | live hproper hlive =>
      rcases color_of_live hproper hlive with ⟨q, rfl⟩ | ⟨c, hc⟩
      · rw [C.final_machine]
      · obtain ⟨p, hp⟩ := final_of_color hc
        have hkey : r.name ∈ C.f.colors.keys := by
          rw [Std.TreeMap.mem_keys]
          exact Std.TreeMap.mem_iff_isSome_getElem?.mpr (hc ▸ rfl)
        have hcolor := hword r.name hkey
        rw [show Reg.ofName r.name = r from hproper] at hcolor
        rw [hp, hmachine, hother' r, hcolor, hp]
        -- a register with a slot has no colour
        intro k hk heq
        rw [mem_range'_1] at hk
        obtain ⟨j, hj, hjk⟩ := Finish.exists_renumber C.stage.dense ⟨hk.1, by omega⟩
        rw [Finish.home_of_renumber hj hjk] at heq
        obtain ⟨⟨l, hl⟩, _⟩ := slotted_of_kept hj
        rw [← heq] at hl
        rw [colors_slot hl] at hc
        cases hc
    | slot h => rw [h.final]
    | saved _ _ hlt => omega
    | rsp => rw [show C.f.final .rsp = .rsp from C.final_machine .rsp]
    | rbp => rw [show C.f.final .rbp = .rbp from C.final_machine .rbp]
    | unused | restored => rw [C.final_machine]
    | result => rw [show C.f.final .rax = .rax from C.final_machine .rax]

end Closing

/-! ## Allocated code -/

/-- A function's code before allocation. It names no pointer, no callee-saved register and none
that keeps such a register, but for words above the frame pointer and the stack pointer moved by
constants, and no register that is issued later. Only calls name its labels, and jumps go to
labels of it. -/
structure Body (supply : Supply) (code : List Instr) : Prop where
  fine {x : Instr} (hx : x ∈ code) : x.Fine
    (fun r => Workable r ∧ Own r ∧ ∀ j, r = .issued j → j < supply.issued) (fun _ => False)
    (· ∉ labels code)
  targets : ∀ l ∈ targets code, l ∈ labels code

section

variable {supply : Supply} {body : List Instr}

theorem Body.stage (h : Body supply body) : Stage body ∅ supply.issued body where
  fine hx := by
    refine (h.fine hx).imp ?_ fun _ => False.elim
    rintro r _ ⟨hwork, hown, hbefore⟩
    exact ⟨⟨hwork, by simp, hbefore⟩, hown⟩
  dense := dense_empty
  spillable n k hn := by simp at hn
  skeleton := rfl

theorem Body.named (h : Body supply body) : Named body :=
  named_of_fine (fun _ hx => h.fine hx) fun _ hr => hr.1.proper

theorem Body.isMachine_of_live {returns : Bool} {live : Liveness} (h : Body supply body)
    (hsolves : live.Solves body returns)
    (hentry : ∀ n, (Reg.abstract n).Proper → ¬ live.LiveBefore 0 (.abstract n)) {r : Reg}
    (hproper : r.Proper) (hr : live.LiveBefore 0 r) : IsMachine r := by
  cases r with
  | machine q => exact ⟨q, rfl⟩
  | abstract n => exact absurd hr (hentry n hproper)
  | rip =>
    obtain ⟨k, hk, _⟩ := hr
    rcases hsolves.known (getElem?_of_id? hsolves h.named hproper hk) with hm | ⟨x, hx, haccess⟩
    · exact hm
    · exact (reg_of_fine (h.fine hx) haccess).elim (fun hr => absurd rfl hr.1.rip) id

/-- Slots whose words can be used are few. -/
theorem count_lt_of_check {base : Int64} {count : Nat}
    (h : ∀ k, 0 < k ∧ k ≤ count → State.checkAddress (slotAddress base k) = .ok ()) :
    count < 2 ^ 59 := by
  by_contra hle
  have hone : 0 < 1 ∧ 1 ≤ count := by omega
  have hfar : 0 < 2 ^ 58 ∧ 2 ^ 58 ≤ count := by omega
  obtain ⟨_, hlow, hhigh⟩ := checkAddress_eq_ok_iff.mp (h 1 hone)
  obtain ⟨_, hlow', _⟩ := checkAddress_eq_ok_iff.mp (h (2 ^ 58) hfar)
  have haddress : slotAddress base (2 ^ 58) = slotAddress base 1 + -2305843009213693944 := by
    unfold slotAddress
    rw [Int64.add_assoc]
    rfl
  have hdistance : (-2305843009213693944 : Int64).toInt = -2305843009213693944 := rfl
  rw [dataStart_toInt] at hlow hlow'
  rw [stackTop_toInt] at hhigh
  rw [haddress, Int64.toInt_add, hdistance, Int.bmod_eq_of_le (by omega) (by omega)] at hlow'
  omega

variable {returns : Bool} {live : Liveness} {result : Allocated} {calls : Calls}
  {globals : Std.TreeMap Name Int64} {s : State}

/-- The callee-saved registers hold what they held in a state. -/
def Restores (s : State) (e : Ending) : Prop :=
  ∀ t, e = .finished t → ∀ q ∈ MachineReg.calleeSaved, t.get (.machine q) = s.get (.machine q)

/-- A function's code ends with the callee-saved registers that it began with. -/
theorem Body.restores (h : Body supply body) {Z : Int64 → Prop} (hcalls : calls.Regular Z)
    {Q : Ending → Prop} (hruns : (imageOf globals body).Settles calls
      (Apart Z (imageOf globals body)) Q s) :
    (imageOf globals body).Settles calls (Apart Z (imageOf globals body))
      (fun e => Q e ∧ Restores s e) s := by
  refine (hruns.invariant (I := fun t => ∀ q ∈ MachineReg.calleeSaved,
    t.get (.machine q) = s.get (.machine q)) (fun _ _ => rfl) ?_).mono (fun _ _ h => h)
    fun e he => he
  intro t x t' ht hx _ hmoves q hq
  rw [h.stage.get_calleeSaved hcalls hx hmoves hq, ht q hq]

/-- Allocated code runs as the function's code does. -/
theorem Body.runsAs (h : Body supply body) (hlive : analyze body returns = .ok live)
    (hentry : ∀ n, (Reg.abstract n).Proper → ¬ live.LiveBefore 0 (.abstract n))
    (hresult : allocate supply returns (keepCalleeSaved body) = .ok result)
    (hcheck : ∀ k, 0 < k ∧ k ≤ result.slots →
      State.checkAddress (slotAddress (s.get .rbp) k) = .ok ())
    (hcalls : calls.Regular (SlotWord (s.get .rbp) result.slots)) (hs : s.ip = 0) :
    RunsAs calls (SameEnd (SlotWord (s.get .rbp) result.slots) (Left returns))
      (imageOf globals body)
      (Apart (SlotWord (s.get .rbp) result.slots) (imageOf globals body)) s
      (imageOf globals result.code) (fun _ _ => True) s := by
  have hsolves := analyze_solves hlive
  rw [allocate, ← enclosed_empty] at hresult
  obtain ⟨slots, supply', code, round, n, hspills, hround, hspilled, hlast⟩ :=
    exists_lastRound hresult
  obtain ⟨⟨mid, rfl, hstage⟩, _⟩ := hspills.stage rfl h.stage
  have hsmall : slots.size < 2 ^ 60 := by
    have hle := size_le_of_lastRound hstage.dense hlast
    have hlt := count_lt_of_check hcheck
    omega
  have hhousing : Housing slots := hstage.housing hsmall
  obtain ⟨C, hfirst, hmid, hslots, hreturns, hout, hcount⟩ :=
    hstage.closing hround hspilled hsmall hlast
  obtain ⟨regs, hmachine, hwords, hfinal⟩ := C.exists_start s
  subst hfirst hmid hslots hreturns
  rw [← hcount] at hcheck hcalls ⊢
  obtain ⟨regs', hkeep, hother⟩ := exists_registers (fun q => .saved (.machine q))
    (fun q => regs.get (.machine q)) MachineReg.calleeSaved (fun _ _ _ _ => saved_inj) regs
  -- the code before the last round starts from one state, and the function's code from another
  -- one, in which registers keep the callee-saved ones already
  let t : State := { s with regs }
  let u : State := { s with regs := regs' }
  have hsame : ∀ q, u.get (.machine q) = t.get (.machine q) := fun q =>
    hother (.machine q) fun _ _ => nofun
  have hkept : Kept u := fun q hq => (hkeep q hq).trans (hsame q).symm
  have hmatters : Agree id (Matters live 0) (SameWorld (SlotWord (s.get .rbp) C.f.kept.length)) s u := by
    refine ⟨fun r hr => ?_, .of_eq rfl rfl rfl, rfl, rfl⟩
    obtain ⟨q, rfl⟩ : IsMachine r :=
      hr.elim id fun ⟨hproper, hr⟩ => h.isMachine_of_live hsolves hentry hproper hr
    exact (hsame q).trans (hmachine q)
  have hlodged : (C.homes.frame (s.get .rbp)).Holds IsMachine t s := by
    refine ⟨fun {n k} hn => ?_, fun {r} hr _ => ?_, .of_eq rfl rfl rfl, rfl, rfl, rfl⟩
    · obtain ⟨hk, hhome⟩ := (lodgings_eq_some C.homes).mp hn
      exact load_eq_ok.mpr ⟨hcheck k hk, hhome ▸ hwords k hk⟩
    · obtain ⟨q, rfl⟩ := hr
      exact (hmachine q).symm
  have hbody := runsAs_of_matters hsolves h.named (fun x hx => isOwn_of_fine (h.fine hx)) h.targets
    hcalls globals hs (show u.ip = 0 from hs) hmatters
  have hmoves : RunsAs calls _ _ _ u (imageOf globals ((enclosed ∅ C.first).map (viewed C.f.slots)))
      _ t := h.stage.runsAs_enclosed hhousing hcalls hs hs hkept
    (fun r hr => (hother r hr).symm) (.of_eq rfl rfl rfl) rfl rfl
  have hrounds := hspills.runsAs rfl h.stage hsmall hcalls globals (show t.ip = 0 from hs)
  have hfinish : RunsAs calls _ (imageOf globals (C.code.map C.view)) _ t
      (imageOf globals result.code) _ s :=
    C.runsAs_finished hout h.targets hcalls hs hs hlodged hfinal
  refine RunsAs.trans ?_ hfinish SameEnd.trans
  exact ((hbody.trans hmoves SameEnd.trans).trans hrounds SameEnd.trans).mono fun he =>
    SameEnd.mono he fun _ => Left.isMachine

/-- Allocation preserves meaning and the callee-saved registers. Where the slots are words that the
function's code does not touch, the allocated code ends as the function's code does with abstract
registers as registers, or goes on for ever as it does, and the callee-saved registers hold in the
end what they held at first. Calls may do anything that depends on what a callee sees, but they
set every register that they do not keep. -/
theorem allocate_preserves (h : Body supply body) (hlive : analyze body returns = .ok live)
    (hentry : ∀ n, (Reg.abstract n).Proper → ¬ live.LiveBefore 0 (.abstract n))
    (hresult : allocate supply returns (keepCalleeSaved body) = .ok result)
    (globals : Std.TreeMap Name Int64) (hs : s.ip = 0)
    (hcheck : ∀ k, 0 < k ∧ k ≤ result.slots →
      State.checkAddress (slotAddress (s.get .rbp) k) = .ok ())
    (hcalls : calls.Regular (SlotWord (s.get .rbp) result.slots)) :
    RunsAs calls (fun e e' => SameEnd (SlotWord (s.get .rbp) result.slots) (Left returns) e e' ∧
        Restores s e') (imageOf globals body)
      (Apart (SlotWord (s.get .rbp) result.slots) (imageOf globals body)) s
      (imageOf globals result.code) (fun _ _ => True) s := by
  have hruns : RunsAs calls _ (imageOf globals body) _ s _ _ s :=
    h.runsAs hlive hentry hresult hcheck hcalls hs
  refine ⟨fun hsettles => ?_, hruns.endless⟩
  refine (hruns.settles (h.restores hcalls hsettles)).mono (fun _ _ h => h) ?_
  rintro e' ⟨e, ⟨hQ, hrestores⟩, hsame⟩
  refine ⟨e, hQ, hsame, ?_⟩
  -- the callee-saved registers are among those that are the same at the end
  rintro t rfl q hq
  cases e with
  | failed _ _ => exact hsame.elim
  | finished u =>
    rw [← hsame.2 (.machine q) (.inr (.inr (.inl ⟨q, hq, rfl⟩)))]
    exact hrestores u rfl q hq

end

section

variable {body : List Instr} {supply : Supply} {returns : Bool} {live : Liveness}

/-- A short name is neither that of an issued register nor of one that keeps another. -/
theorem own_abstract {n : Name} (hproper : (Reg.abstract n).Proper) (hshort : n.length < 14) :
    Workable (.abstract n) ∧ Own (.abstract n) ∧
      ∀ j, Reg.abstract n = .issued j → j < supply.issued := by
  refine ⟨workable_abstract hproper, ⟨fun _ _ => nofun, ?_⟩, fun j hj => ?_⟩
  · rintro ⟨q, rfl⟩
    have hmark : Reg.savedMark.length = 18 := rfl
    have hlength : (Reg.saved (.machine q)).name.length =
        Reg.savedMark.length + (Reg.machine q).name.length := length_append
    omega
  · obtain rfl := Reg.abstract.inj hj
    have hmark : Reg.issuedMark.length = 14 := rfl
    rw [length_append, hmark] at hshort
    omega

theorem own_machine {q : MachineReg} (hwork : Workable (.machine q))
    (hq : q ∉ MachineReg.calleeSaved) :
    Workable (.machine q) ∧ Own (.machine q) ∧
      ∀ j, Reg.machine q = .issued j → j < supply.issued := by
  refine ⟨hwork, ⟨fun p hp h => hq (Reg.machine.inj h ▸ hp), ?_⟩, fun _ => nofun⟩
  rintro ⟨p, hp⟩
  cases ((proper_machine q).name_inj (Reg.ofName_saved (.machine p))).mp hp

/-- Only machine registers are live at the start. -/
def startsFree (live : Liveness) : Bool :=
  (live.before.getD 0 .empty).toList.all fun k => (live.vars.regs[k]?).all Reg.isMachine

theorem not_liveBefore_of_startsFree (hsolves : live.Solves body returns) (hnamed : Named body)
    (h : startsFree live = true) (n : Name) (hproper : (Reg.abstract n).Proper) :
    ¬ live.LiveBefore 0 (.abstract n) := by
  rintro ⟨k, hk, hkey⟩
  have hmachine := all_eq_true.mp h k ((KeySet.mem_toList _ k).mpr hkey)
  rw [getElem?_of_id? hsolves hnamed hproper hk] at hmachine
  cases hmachine

theorem exists_ok_of_any {ε α : Type} {x : Except ε α} {p : α → Bool}
    (h : x.toOption.any p = true) : ∃ a, x = .ok a ∧ p a = true := by
  cases x with
  | ok a => exact ⟨a, rfl, h⟩
  | error e => cases h

end

/-- Passes a constant to a function, and its result on through a register. -/
def relaying : List Instr :=
  [.mov (.reg (.machine .rdi)) (.imm 3), .call (.const (.sym "g")), .copy (.abstract "t") .rax,
    .copy .rax (.abstract "t")]

theorem body_relaying : Body ⟨0⟩ relaying := by
  have ht := @own_abstract ⟨0⟩ "t" (by decide) (by decide)
  refine ⟨fun {x} hx => ?_, by decide⟩
  simp only [relaying, mem_cons, not_mem_nil, or_false] at hx
  rcases hx with rfl | rfl | rfl | rfl
  · exact ⟨own_machine (workable_machine (by decide) (by decide)) (by decide), trivial⟩
  · exact .inl ⟨_, rfl⟩
  · exact ⟨ht, own_machine (workable_machine (by decide) (by decide)) (by decide)⟩
  · exact ⟨own_machine (workable_machine (by decide) (by decide)) (by decide), ht⟩

theorem relaying_preserved : ∃ result, allocate ⟨0⟩ true (keepCalleeSaved relaying) = .ok result ∧
    RunsAs echo.calls (fun e e' => SameEnd (fun _ => False) (Left true) e e' ∧
        Restores countdownStart e') (imageOf ∅ relaying)
      (Apart (fun _ => False) (imageOf ∅ relaying)) countdownStart (imageOf ∅ result.code)
      (fun _ _ => True) countdownStart := by
  obtain ⟨live, hlive, hstart⟩ : ∃ live, analyze relaying true = .ok live ∧ startsFree live = true :=
    exists_ok_of_any (by decide +kernel)
  obtain ⟨result, hresult, hslots⟩ : ∃ result,
      allocate ⟨0⟩ true (keepCalleeSaved relaying) = .ok result ∧ (result.slots == 0) = true :=
    exists_ok_of_any (by decide +kernel)
  have hslots : result.slots = 0 := eq_of_beq hslots
  have hnone : SlotWord (countdownStart.get .rbp) result.slots = fun _ => False := by
    funext a
    rw [hslots]
    exact propext ⟨fun ⟨k, hpos, hle, _⟩ => absurd hpos (by omega), False.elim⟩
  have hentry := not_liveBefore_of_startsFree (analyze_solves hlive) body_relaying.named hstart
  have hruns := allocate_preserves body_relaying hlive hentry hresult ∅ (s := countdownStart) rfl
    (fun k hk => absurd hk.1 (by omega)) (hnone ▸ echo.regular)
  rw [hnone] at hruns
  exact ⟨result, hresult, hruns⟩

/-- Uses a register before it calls a function that leaves `rax` as it is. -/
def quiet : List Instr :=
  [.mov (.reg (.abstract "t")) (.imm 7), .mov (.mem ⟨none, none, .imm 4104⟩) (.reg (.abstract "t")),
    .mov (.reg (.machine .rdi)) (.imm 4096), .call (.const (.sym "_builtin_println"))]

theorem body_quiet : Body ⟨0⟩ quiet := by
  have ht := @own_abstract ⟨0⟩ "t" (by decide) (by decide)
  refine ⟨fun {x} hx => ?_, by decide⟩
  simp only [quiet, mem_cons, not_mem_nil, or_false] at hx
  rcases hx with rfl | rfl | rfl | rfl
  · exact ⟨ht, trivial⟩
  · exact ⟨.inr ⟨trivial, .inr fun r hr => nomatch hr⟩, ht⟩
  · exact ⟨own_machine (workable_machine (by decide) (by decide)) (by decide), trivial⟩
  · exact .inl ⟨_, rfl⟩

/-- Where a program ends after a number of steps, and what `rax` holds there. -/
def endOf (code : List Instr) : Option (Int × Int64) :=
  ((imageOf ∅ code).steps code.length countdownStart).toOption.map fun s => (s.ip, s.get .rax)

/-- A call that does not set every register it may change shows which of them code worked in. -/
theorem quiet_differs : Body ⟨0⟩ quiet ∧
    ∃ live result, analyze quiet true = .ok live ∧
      (∀ n, (Reg.abstract n).Proper → ¬ live.LiveBefore 0 (.abstract n)) ∧
      allocate ⟨0⟩ true (keepCalleeSaved quiet) = .ok result ∧ result.slots = 0 ∧
      endOf quiet = some ((quiet.length : Int), 0) ∧
      endOf result.code = some ((result.code.length : Int), 7) := by
  obtain ⟨live, hlive, hstart⟩ : ∃ live, analyze quiet true = .ok live ∧ startsFree live = true :=
    exists_ok_of_any (by decide +kernel)
  obtain ⟨result, hresult, hend⟩ : ∃ result,
      allocate ⟨0⟩ true (keepCalleeSaved quiet) = .ok result ∧ decide (result.slots = 0 ∧
        endOf result.code = some ((result.code.length : Int), 7)) = true :=
    exists_ok_of_any (by decide +kernel)
  obtain ⟨hslots, hend⟩ := of_decide_eq_true hend
  exact ⟨body_quiet, live, result, hlive,
    not_liveBefore_of_startsFree (analyze_solves hlive) body_quiet.named hstart, hresult, hslots,
    by decide +kernel, hend⟩

end X64Backend.Alloc
