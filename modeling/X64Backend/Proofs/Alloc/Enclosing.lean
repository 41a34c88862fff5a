import X64Backend.Proofs.Alloc.Homes
import X64Backend.Proofs.Alloc.Tracking

/-! # Callee-saved registers kept around code

What code does depends on no abstract register that is not live at its beginning. With the
callee-saved registers copied to registers that the code does not name, and back behind it, the
code does what it did.
-/

namespace X64Backend.Asm

theorem Operand.mapRegs_id (a : Operand) : a.mapRegs id = a := by
  cases a with
  | mem m => simp [Operand.mapRegs, Mem.mapRegs]
  | _ => rfl

theorem Instr.mapRegs_id (x : Instr) : x.mapRegs id = x := by
  cases x <;> simp [Instr.mapRegs, Operand.mapRegs_id, Mem.mapRegs]

end X64Backend.Asm

namespace X64Backend.Alloc

open Asm Machine Dataflow List

/-! ## What code starts from -/

section

variable {code : List Instr} {returns : Bool} {live : Liveness} {calls : Calls} {Z : Int64 → Prop}

/-- Registers that matter at a position whatever the code becomes: the machine's, and those
that are live. -/
def Matters (live : Liveness) (i : Nat) (r : Reg) : Prop :=
  IsMachine r ∨ r.Proper ∧ live.LiveBefore i r

theorem recolors_id (h : live.Solves code returns) (hnamed : Named code) (hret : .ret ∉ code) :
    Recolors (labelTable code) code id (Matters live) where
  machine _ := rfl
  rip _ := .rfl
  rsp _ := .inl ⟨_, rfl⟩
  rbp _ := .inl ⟨_, rfl⟩
  used {i x r} hx hr := by
    refine .inr ⟨hnamed.proper (mem_of_getElem? hx) (.inl hr), ?_⟩
    exact (h.liveBefore_iff (List.getElem?_eq_some_iff.mp hx).1).mpr (.inl (reads_of_mem hx hr))
  kept {i x j r} hx hnext hr hdefs := by
    refine hr.imp_right fun ⟨hproper, hlive⟩ => ⟨hproper, ?_⟩
    have hxret : x ≠ .ret := fun hx' => hret (hx' ▸ mem_of_getElem? hx)
    have hbehind := liveBehind_of_next h hx hxret hnext hlive
    exact liveBefore_of_liveBehind h hnamed hx hproper hbehind hdefs
  apart _ _ _ _ hne heq := absurd heq hne

/-- Code runs alike from states that differ in registers which do not matter. -/
theorem runsAs_of_matters (h : live.Solves code returns) (hnamed : Named code)
    (hown : ∀ x ∈ code, isOwn x = true) (htargets : ∀ l ∈ targets code, l ∈ labels code)
    (hcalls : calls.Regular Z) (globals : Std.TreeMap Name Int64) {s t : State} (hs : s.ip = 0)
    (ht : t.ip = 0) (hag : Agree id (Matters live 0) (SameWorld Z) s t) :
    RunsAs calls (SameEnd Z IsMachine) (imageOf globals code) (Apart Z (imageOf globals code)) s
      (imageOf globals code) (Apart Z (imageOf globals code)) t := by
  have hret : .ret ∉ code := fun hmem => nomatch hown _ hmem
  have hbecomes : List.Forall₂ (Becomes id) code code := by
    rw [forall₂_same]
    intro x _
    have hx := Becomes.renamed (φ := id) x
    rwa [Instr.mapRegs_id] at hx
  have sim : Simulation calls (imageOf globals code) (imageOf globals code)
      (Apart Z (imageOf globals code)) (Apart Z (imageOf globals code)) (SameEnd Z IsMachine)
      (Locked fun j => Agree id (Matters live j) (SameWorld Z)) fun _ => 0 := by
    refine (recolors_id h hnamed hret).simulation hcalls rfl rfl rfl rfl hbecomes hown ?_ ?_
    · intro c l hjump
      rw [imageOf, labelTable_getElem?, isSome_position?]
      exact htargets l (mem_targets.mpr ⟨c, hjump⟩)
    · exact fun r hr => ⟨.inl hr, rfl⟩
  exact .of_simulation sim ⟨0, hs, ht, hag⟩

end

/-! ## Registers that code does not touch -/

section

variable {P : Reg → Prop} {slot : Nat → Prop} {sym : Name → Prop} {x : Instr}

/-- Code without slots looks the same with slots seen as registers. -/
theorem homedInstr_of_fine {home : Nat → Reg} (hx : x.Fine P slot sym) (hslot : ∀ k, ¬ slot k)
    (hrbp : ¬ P .rbp) : homedInstr home x = x := by
  have hop : ∀ {a : Operand}, a.Fine P slot sym → homed home a = a := by
    intro a ha
    cases a with
    | mem m =>
      rcases ha with ⟨n, hn, _⟩ | hplain
      · exact absurd hn (hslot n)
      · exact homed_plain home hplain hrbp
    | _ => rfl
  cases x with
  | call a =>
    rcases hx with ⟨n, rfl⟩ | ha
    · rfl
    · simp only [homedInstr, Instr.mapOperands, hop ha]
  | arith op d a =>
    rcases hx with ⟨rfl, _, v, rfl⟩ | ⟨hd, ha⟩
    · rfl
    · simp only [homedInstr, Instr.mapOperands, hop hd, hop ha]
  | mov d a | cmp l r => simp only [homedInstr, Instr.mapOperands, hop hx.1, hop hx.2]
  | imul d a | imul3 d a k => simp only [homedInstr, Instr.mapOperands, hop hx.2]
  | idiv a | neg a | shl a k | push a => simp only [homedInstr, Instr.mapOperands, hop (a := a) hx]
  | _ => rfl

end

/-- Copies between registers none of which is both written and copied. -/
theorem seq_copies {img : Image} {ok : State → Instr → Prop} {α : Type} (f g : α → Reg)
    (qs : List α) (hok : ∀ s d r, ok s (.mov (.reg d) (.reg r)))
    (hfg : ∀ p ∈ qs, ∀ q ∈ qs, f p ≠ g q) (hf : ∀ p ∈ qs, ∀ q ∈ qs, f p = f q → p = q)
    (Z : Int64 → Prop) (s : State) :
    ∃ s', Seq img ok (qs.map fun q => .mov (.reg (f q)) (.reg (g q))) s s' ∧
      (∀ q ∈ qs, s'.get (f q) = s.get (g q)) ∧ (∀ r, (∀ q ∈ qs, r ≠ f q) → s'.get r = s.get r) ∧
      SameWorld Z s s' ∧ s.left = s'.left ∧ s.right = s'.right := by
  induction qs generalizing s with
  | nil =>
    exact ⟨s, .nil s, fun _ hq => absurd hq not_mem_nil, fun _ _ => rfl, .refl s, rfl, rfl⟩
  | cons q qs ih =>
    have hmem : ∀ {p}, p ∈ qs → p ∈ q :: qs := fun hp => mem_cons_of_mem q hp
    obtain ⟨s', hseq, hwritten, hother, hworld, hleft, hright⟩ :=
      ih (fun a ha b hb => hfg a (hmem ha) b (hmem hb))
        (fun a ha b hb => hf a (hmem ha) b (hmem hb)) (s.advance.set (f q) (s.get (g q)))
    refine ⟨s', .cons rfl (hok _ _ _) rfl hseq, ?_, ?_, ?_, hleft, hright⟩
    · intro p hp
      by_cases hp' : p ∈ qs
      · rw [hwritten p hp', State.get_set_of_ne _ _ (hfg q mem_cons_self p hp)]
        rfl
      · grind [State.get_set_self]
    · intro r hr
      rw [hother r fun a ha => hr a (hmem ha),
        State.get_set_of_ne _ _ (hr q mem_cons_self).symm]
      rfl
    · exact ⟨hworld.memory, hworld.heap, hworld.output⟩

/-! ## Code with the moves around it -/

/-- The registers that keep the callee-saved ones hold what these hold. -/
def Kept (s : State) : Prop :=
  ∀ q ∈ MachineReg.calleeSaved, s.get (.saved (.machine q)) = s.get (.machine q)

theorem not_callerSaved {q : MachineReg} (h : q ∈ MachineReg.calleeSaved) :
    q ∉ MachineReg.callerSaved := by
  revert h
  cases q <;> decide

section

variable {body : List Instr} {issued : Nat} {all : Slots} {calls : Calls} {Z : Int64 → Prop}
  {globals : Std.TreeMap Name Int64} {s s' t : State} {x : Instr}

/-- A function's own instructions keep the registers that are not its own. -/
theorem Stage.get_of_moves (h : Stage body ∅ issued body) (hcalls : calls.Regular Z)
    (hx : (imageOf globals body).At s x)
    (hmoves : (imageOf globals body).Moves calls s x (.ok s')) {r : Reg} (hown : ¬ Own r)
    (hrsp : r ≠ .rsp) (hcaller : ∀ q ∈ MachineReg.callerSaved, r ≠ .machine q) :
    s'.get r = s.get r := by
  have hmem : x ∈ body := by
    obtain ⟨i, _, hi⟩ := hx
    rw [imageOf, getElem?_toArray] at hi
    exact mem_of_getElem? hi
  have hfine := h.fine hmem
  have hdefs : r ∉ defs x := by
    grind [def_of_fine]
  by_cases hcall : ∃ a, x = .call a
  · obtain ⟨a, rfl⟩ := hcall
    simp only [Image.Moves] at hmoves
    split at hmoves
    · exact hcalls.regs hmoves r hcaller
    · cases hmoves
  · have hne : ∀ a, x ≠ .call a := fun a ha => hcall ⟨a, ha⟩
    have hnot : isCall x = false := by
      cases x with
      | call a => exact absurd rfl (hne a)
      | _ => rfl
    rw [Image.moves_of_not_call hnot] at hmoves
    have hret : x ≠ .ret := by
      rintro rfl
      exact hfine
    exact (get_of_exec hne hret hmoves.symm hdefs).trans (State.get_advance s r)

theorem Stage.get_calleeSaved (h : Stage body ∅ issued body) (hcalls : calls.Regular Z)
    (hx : (imageOf globals body).At s x)
    (hmoves : (imageOf globals body).Moves calls s x (.ok s')) {q : MachineReg}
    (hq : q ∈ MachineReg.calleeSaved) : s'.get (.machine q) = s.get (.machine q) := by
  refine h.get_of_moves hcalls hx hmoves (fun hown => hown.callee q hq rfl)
    (workable_calleeSaved hq).rsp ?_
  rintro p hp ⟨⟩
  exact not_callerSaved hq hp

/-- A function's own instructions touch neither the callee-saved registers nor those that
keep them. -/
theorem Stage.kept_moves (h : Stage body ∅ issued body) (hcalls : calls.Regular Z)
    (hkept : Kept s) (hx : (imageOf globals body).At s x)
    (hmoves : (imageOf globals body).Moves calls s x (.ok s')) : Kept s' := by
  intro q hq
  have hsaved : s'.get (.saved (.machine q)) = s.get (.saved (.machine q)) :=
    h.get_of_moves hcalls hx hmoves (fun hown => hown.saved ⟨q, rfl⟩) nofun fun _ _ => nofun
  rw [hsaved, h.get_calleeSaved hcalls hx hmoves hq]
  exact hkept q hq

theorem flatten_singletons (code : List Instr) : (code.map fun x => [x]).flatten = code := by
  induction code with
  | nil => rfl
  | cons x code ih => rw [map_cons, flatten_cons, ih, singleton_append]

/-- Moves between registers touch no words. -/
theorem apart_copy {img : Image} (s : State) (d r : Reg) :
    Apart Z img s (.mov (.reg d) (.reg r)) :=
  ⟨fun _ hm => (nomatch hm), fun h => (nomatch h)⟩

theorem saved_inj {p q : MachineReg} (h : Reg.saved (.machine p) = .saved (.machine q)) :
    p = q := by
  have hname := append_cancel_left (Reg.abstract.inj h)
  exact Reg.machine.inj (((proper_machine p).name_inj (proper_machine q)).mp hname)

variable (all) in
/-- The moves in front copy the callee-saved registers. -/
theorem seq_saves (img : Image) (s : State) :
    ∃ s', Seq img (Apart Z img) ((saves ∅).map (viewed all)) s s' ∧
      (∀ q ∈ MachineReg.calleeSaved, s'.get (.saved (.machine q)) = s.get (.machine q)) ∧
      (∀ r, (∀ q ∈ MachineReg.calleeSaved, r ≠ .saved (.machine q)) → s'.get r = s.get r) ∧
      SameWorld Z s s' ∧ s.left = s'.left ∧ s.right = s'.right :=
  seq_copies (fun q => .saved (.machine q)) .machine MachineReg.calleeSaved apart_copy
    (fun _ _ _ _ => nofun) (fun _ _ _ _ => saved_inj) Z s

variable (all) in
/-- The moves behind copy them back. -/
theorem seq_restores (img : Image) (s : State) :
    ∃ s', Seq img (Apart Z img) ((restores ∅).map (viewed all)) s s' ∧
      (∀ q ∈ MachineReg.calleeSaved, s'.get (.machine q) = s.get (.saved (.machine q))) ∧
      (∀ r, (∀ q ∈ MachineReg.calleeSaved, r ≠ .machine q) → s'.get r = s.get r) ∧
      SameWorld Z s s' ∧ s.left = s'.left ∧ s.right = s'.right :=
  seq_copies .machine (fun q => .saved (.machine q)) MachineReg.calleeSaved apart_copy
    (fun _ _ _ _ => nofun) (fun _ _ _ _ => Reg.machine.inj) Z s

/-- Behind code that left the callee-saved registers and their copies alone, the moves back
change nothing. -/
theorem settles_restores {img : Image} {i : Nat}
    (hcode : img.Holds i ((restores ∅ ++ [Instr.comment "Dummy end of program."]).map (viewed all)))
    (hsize : img.code.size = i + 6) (hs : Kept s)
    (hregs : ∀ q, t.get (.machine q) = s.get (.machine q))
    (hsaved : ∀ q ∈ MachineReg.calleeSaved,
      t.get (.saved (.machine q)) = s.get (.saved (.machine q)))
    (hworld : SameWorld Z s t) (ht : t.ip = i) :
    img.Settles calls (Apart Z img) (SameEnd Z IsMachine (.finished s)) t := by
  rw [map_append] at hcode
  obtain ⟨t', hseq, hback, hother, hworld', _⟩ := seq_restores (Z := Z) all img t
  have hend : ∀ q, t'.get (.machine q) = s.get (.machine q) := by
    intro q
    by_cases hq : q ∈ MachineReg.calleeSaved
    · rw [hback q hq, hsaved q hq, hs q hq]
    · rw [hother, hregs]
      rintro p hp ⟨⟩
      exact hq hp
  have ht' : t'.ip = (i + 5 : Nat) := by
    rw [Seq.ip_eq hseq, ht]
    rfl
  refine hseq.settles hcode.left ht (.step ⟨_, ht', hcode.right.head⟩ ?_ ?_ ?_)
  · exact ⟨fun _ hm => (nomatch hm), fun h => (nomatch h)⟩
  · rintro u ⟨⟩
    refine .done ?_ ⟨?_, ?_⟩
    · rw [State.ip_advance, ht', hsize]
      omega
    · exact ⟨(hworld.trans hworld').memory, (hworld.trans hworld').heap,
        (hworld.trans hworld').output⟩
    · rintro _ ⟨q, rfl⟩
      exact (hend q).symm
  · rintro e u ⟨⟩

/-- With the callee-saved registers kept around it, code does what it did. -/
theorem Stage.runsAs_enclosed (h : Stage body ∅ issued body) (hall : Housing all)
    (hcalls : calls.Regular Z) (hs : s.ip = 0) (ht : t.ip = 0) (hkept : Kept s)
    (hregs : ∀ r, (∀ q ∈ MachineReg.calleeSaved, r ≠ .saved (.machine q)) → t.get r = s.get r)
    (hworld : SameWorld Z s t) (hleft : s.left = t.left) (hright : s.right = t.right) :
    RunsAs calls (SameEnd Z IsMachine) (imageOf globals body) (Apart Z (imageOf globals body)) s
      (imageOf globals ((enclosed ∅ body).map (viewed all)))
      (Apart Z (imageOf globals ((enclosed ∅ body).map (viewed all)))) t := by
  have hslot : ∀ k, ¬ ∃ n : Name, (∅ : Slots)[n]? = some k ∧ ¬ SavedName n := by simp
  have hview : ∀ x ∈ body, viewed all x = x := fun x hx =>
    homedInstr_of_fine (h.fine hx) hslot fun hr => hr.1.workable.rbp rfl
  let K : Keeping := hall.keeping (fun n k (hn : (∅ : Slots)[n]? = some k) => by simp at hn) Z
  have hproper : ∀ q, (Reg.machine q).Proper := proper_machine
  -- The body stands for itself, one block for each instruction.
  have hkeeps : K.Blocks Reg.Proper body (body.map fun x => [x]) := by
    refine .of_fine (fun x hx => (h.fine hx).imp (fun _ _ hr => hr) hslot)
      (fun r hr => ⟨⟨hr.1.workable.proper, fun _ => hr.1.workable.proper⟩, hr.1.workable.rbp⟩)
      (fun n hn => hn) hproper ?_
    rw [forall₂_map_right_iff, forall₂_same]
    intro x hx
    have hblock : Block K.loc ∅ (fun _ => False) (viewed all x) [x] :=
      block_homed (h.fine hx) (fun hr => hr.1.workable.rbp rfl) (fun _ => rfl) (fun _ _ => rfl)
        fun k hk => absurd hk (hslot k)
    rw [hview x hx] at hblock
    exact .block (fun _ h => h.elim) hblock
  have hcode : (enclosed ∅ body).map (viewed all) = (saves ∅).map (viewed all) ++
      (body.map fun x => [x]).flatten ++
        (restores ∅ ++ [Instr.comment "Dummy end of program."]).map (viewed all) := by
    rw [flatten_singletons, enclosed, append_assoc, map_append, map_append,
      map_congr_left hview, map_id']
  have hpre : labels ((saves ∅).map (viewed all)) = [] := rfl
  have hpost : labels ((restores ∅ ++ [Instr.comment "Dummy end of program."]).map
    (viewed all)) = [] := rfl
  have hsix : ((restores ∅ ++ [Instr.comment "Dummy end of program."]).map
    (viewed all)).length = 6 := rfl
  rw [hcode]
  generalize hbehind : (restores ∅ ++ [Instr.comment "Dummy end of program."]).map (viewed all) =
    behind at hpost hsix ⊢
  have hholds : (imageOf globals ((saves ∅).map (viewed all) ++ (body.map fun x => [x]).flatten ++
      behind)).Holds 0 ((saves ∅).map (viewed all) ++ ((body.map fun x => [x]).flatten ++ behind)) := by
    intro j y hy
    rw [imageOf, getElem?_toArray, Nat.zero_add, append_assoc]
    exact hy
  have sim := hkeeps.simulation (E := SameEnd Z IsMachine) (I := Kept) (μ := fun _ => 0)
    globals hpre hpost
    (Keeping.calling_of_regular hcalls hproper) (fun hkind hworld => ⟨hkind, hworld⟩)
    (fun hkept hx hmoves => h.kept_moves hcalls hkept hx hmoves) (fun {s t} hag hkept ht => ?_)
    fun hnil => absurd hnil (by simp)
  -- The saves run first, and the body goes on from the state they leave.
  · obtain ⟨t', hseq, hnew, hother, hworld', hleft', hright'⟩ := seq_saves (Z := Z) all
      (imageOf globals ((saves ∅).map (viewed all) ++ (body.map fun x => [x]).flatten ++ behind)) t
    have hmeets : K.Meets Reg.Proper ((saves ∅).map (viewed all)).length (body.map fun x => [x])
        s t' := by
      refine ⟨0, Nat.zero_le _, hs, ?_, fun n k hn => by simp at hn, fun {r} _ _ => ?_,
        hworld.trans hworld', hleft.trans hleft', hright.trans hright'⟩
      · rw [Seq.ip_eq hseq, ht]
        rfl
      · by_cases hr : ∃ q ∈ MachineReg.calleeSaved, r = .saved (.machine q)
        · obtain ⟨q, hq, rfl⟩ := hr
          rw [hnew q hq, hkept q hq, hregs]
          rintro _ _ ⟨⟩
        · simp_all
    exact (RunsAs.of_simulation sim ⟨hmeets, hkept⟩).after hseq hholds.left ht
  -- Behind the body the registers are restored.
  · have hrest := hholds.right.right
    subst hbehind
    refine settles_restores hrest ?_ hkept (fun q => hag.reg (hproper q) rfl)
      (fun q _ => hag.reg (Reg.ofName_saved _) rfl) hag.world ?_
    · simp only [imageOf, size_toArray, length_append, hsix, Nat.zero_add]
    · rw [ht, Nat.zero_add]

end

end X64Backend.Alloc
