import X64Backend.Proofs.Heap

/-! # Step limits

The limit on steps only cuts runs short. An instruction counts as one step whatever it does, and
none stops with the step limit itself. So a call that ends under a limit ends the same way under
every limit that is not lower, and a call that the limit cuts short stands at exactly that many
steps, in a state that the call passes through under the other limit.
-/

namespace X64Backend.Machine

open Asm

/-! ## What an instruction counts -/

open Outcome

section

variable {s : State}

theorem State.unlimited_readText (s : State) (a : Int64) : Unlimited (s.readText a) := by
  refine (s.unlimited_load a).bind fun n => ?_
  split_ifs <;> first | trivial | nofun

/-- A block for a text, or of a size. -/
theorem State.giveBlock_leaves (s : State) (text : Option Bytes) (size : Int64) :
    (s.giveBlock (text.elim (s.allocate size) s.allocateText)).Leaves (·.steps = s.steps) := by
  have hblock (n : Int64) : (∃ a u, s.allocate n = .ok (a, u) ∧ u.steps = s.steps) ∨
      ∃ t, s.allocate n = .error t ∧ t.kind ≠ .stepLimit := by
    unfold State.allocate
    split_ifs <;> simp [Trap.kind]
  cases text with
  | none =>
    rcases hblock size with ⟨a, u, h, hu⟩ | ⟨t, h, ht⟩ <;> rw [Option.elim, h]
    · exact hu
    · exact ⟨rfl, ht⟩
  | some text =>
    rcases hblock (8 + 8 * Int64.ofNat text.length) with ⟨a, u, h, hu⟩ | ⟨t, h, ht⟩ <;>
      rw [Option.elim, State.allocateText, h]
    · exact hu
    · exact ⟨rfl, ht⟩

theorem Builtin.run_leaves (s : State) (b : Builtin) : (b.run s).Leaves (·.steps = s.steps) := by
  have htext := s.unlimited_readText
  cases b with
  | println => exact Leaves.use rfl (htext _) fun _ _ => rfl
  | malloc => exact s.giveBlock_leaves none _
  | intToString => exact s.giveBlock_leaves (some _) 0
  | stringToInt =>
    refine Leaves.use rfl (htext _) fun text _ => ?_
    split
    · rfl
    · exact ⟨rfl, nofun⟩
  | stringConcat =>
    exact Leaves.use rfl (htext _) fun a _ => Leaves.use rfl (htext _) fun b _ =>
      s.giveBlock_leaves (some (a ++ b)) 0
  | throw => exact Leaves.use rfl (htext _) fun text _ => ⟨rfl, nofun⟩

/-- An instruction leaves the counter alone, and none stops with the step limit. -/
theorem Image.exec_counts (img : Image) (s : State) (x : Instr) :
    (img.exec s x).Leaves (·.steps = s.steps) := by
  cases hx : builtin? x with
  | none => exact (img.exec_leaves s hx).imp fun _ h => h.steps
  | some b =>
    rw [exec_of_builtin? hx]
    exact b.run_leaves s

end

/-! ## Runs under two limits -/

/-- The limits on a run that is not cancelled. -/
def Limits.steps (n : Int64) : Limits := ⟨n, false⟩

/-- A run under some limits passes from a state through another. -/
inductive Image.Visits (img : Image) (limits : Limits) : State → State → Prop
  | here (s : State) : Visits img limits s s
  | next {s t u : State} (hip : 0 ≤ s.ip) (hgoes : limits.stop? img s = none)
      (hstep : img.step s = .ok t) (rest : Visits img limits t u) : Visits img limits s u

/-- The state in which a call starts to run. -/
def Image.Starts (img : Image) (entry : Name) (args : List Int64) (s t : State) : Prop :=
  ∃ i u, img.labels[entry]? = some i ∧
    (do ((← (s.alignStack args).passArgs args).push exitAddress) : Outcome) = .ok u ∧
    t = { u with ip := i }

section

variable {img : Image} {n m : Int64} {s s' : State} {fuel fuel' : Nat}

/-- The step counter is below a limit, if there is one, where it does not stop a run. -/
theorem stop?_eq_none_iff : (Limits.steps n).stop? img s = none ↔
    (n = 0 ∨ (s.steps : Int) < n.toInt) ∧ s.ip < img.code.size := by
  unfold Limits.stop? Limits.steps
  grind

theorem steps_of_step (h : img.step s = .ok s') : s'.steps = s.steps + 1 := by
  have hcounts := img.exec_counts s.advance (img.code.getD s.ip.toNat .absent)
  rw [Image.exec_of_step h] at hcounts
  exact hcounts

theorem kind_of_step {f : Failure} (h : img.step s = .error (f, s')) :
    f.trap.kind ≠ .stepLimit := by
  have hcounts := img.exec_counts s.advance (img.code.getD s.ip.toNat .absent)
  rw [Image.exec_of_step_error h] at hcounts
  exact hcounts.2

/-- A limit that is not lower lets pass what the other lets pass, and stops for other reasons where
the other does. -/
theorem stop?_of_le (hn : n ≠ 0) (hle : m = 0 ∨ n ≤ m) :
    ((Limits.steps n).stop? img s = none → (Limits.steps m).stop? img s = none) ∧
      ∀ t, (Limits.steps n).stop? img s = some t → t.kind ≠ .stepLimit →
        (Limits.steps m).stop? img s = some t := by
  have hle' : m = 0 ∨ n.toInt ≤ m.toInt := hle.imp_right Int64.le_iff_toInt_le.mp
  refine ⟨fun h => ?_, fun t h ht => ?_⟩
  · obtain ⟨hsteps, hip⟩ := stop?_eq_none_iff.mp h
    have hlt := hsteps.resolve_left hn
    exact stop?_eq_none_iff.mpr ⟨hle'.imp_right fun h => by omega, hip⟩
  · unfold Limits.stop? Limits.steps at h ⊢
    grind [Trap.kind]

/-- A run that ends other than by the step limit ends the same way under a limit that is not
lower. -/
theorem run_of_le (hn : n ≠ 0) (hle : m = 0 ∨ n ≤ m) (hfuel : fuel ≤ fuel')
    (h : ∀ f ∈ (img.run (.steps n) fuel s).1, f.site = none → f.trap.kind ≠ .stepLimit) :
    img.run (.steps m) fuel' s = img.run (.steps n) fuel s := by
  induction fuel generalizing s fuel' with
  | zero => exact absurd rfl (h _ rfl rfl)
  | succ fuel ih =>
    obtain ⟨k, rfl⟩ : ∃ k, fuel' = k + 1 := ⟨fuel' - 1, by omega⟩
    rw [Image.run] at h ⊢
    rw [Image.run]
    by_cases hip : s.ip < 0
    · rw [if_pos hip, if_pos hip]
    rw [if_neg hip] at h
    rw [if_neg hip, if_neg hip]
    cases hstop : (Limits.steps n).stop? img s with
    | some t =>
      rw [hstop] at h
      rw [(stop?_of_le hn hle).2 t hstop (h _ rfl rfl)]
    | none =>
      rw [hstop] at h
      rw [(stop?_of_le hn hle).1 hstop]
      cases hstep : img.step s with
      | error e => rfl
      | ok t =>
        simp only [hstep] at h
        exact ih (Nat.le_of_succ_le_succ hfuel) h

/-- A run that the step limit ends stands at the limit, and a run under a limit that is not lower
passes through the state. -/
theorem visits_of_stepLimit (hn : n ≠ 0) (hle : m = 0 ∨ n ≤ m) (hsteps : (s.steps : Int) ≤ n.toInt)
    (hfuel : n.toInt.toNat < s.steps + fuel) {f : Failure}
    (h : img.run (.steps n) fuel s = (some f, s')) (hf : f.trap.kind = .stepLimit) :
    (s'.steps : Int) = n.toInt ∧ img.Visits (.steps m) s s' := by
  -- On the fuel, of which there is more than there are steps left.
  induction fuel generalizing s with
  | zero => omega
  | succ fuel ih =>
    rw [Image.run] at h
    by_cases hip : s.ip < 0
    · rw [if_pos hip] at h
      cases h
    rw [if_neg hip] at h
    cases hstop : (Limits.steps n).stop? img s with
    | some t =>
      rw [hstop] at h
      cases h
      refine ⟨?_, .here _⟩
      unfold Limits.stop? Limits.steps at hstop
      grind [Trap.kind]
    | none =>
      rw [hstop] at h
      have hlt := (stop?_eq_none_iff.mp hstop).1.resolve_left hn
      cases hstep : img.step s with
      | error e =>
        simp only [hstep] at h
        cases h
        exact absurd hf (kind_of_step hstep)
      | ok t =>
        simp only [hstep] at h
        have ht := steps_of_step hstep
        obtain ⟨hcount, hvisits⟩ := ih (by omega) (by omega) h
        exact ⟨hcount, .next (Int.not_lt.mp hip) ((stop?_of_le hn hle).1 hstop) hstep hvisits⟩

/-- Fuel for a limit is fuel for every lower one. -/
theorem fuel_le (hn : n ≠ 0) (hle : m = 0 ∨ n ≤ m) :
    (Limits.steps n).fuel s ≤ (Limits.steps m).fuel s := by
  have hlt := n.toInt_lt
  have hle' : m = 0 ∨ n.toInt ≤ m.toInt := hle.imp_right Int64.le_iff_toInt_le.mp
  unfold Limits.fuel Limits.steps
  simp only [hn, if_false]
  split
  · omega
  next hm =>
    have := hle'.resolve_left hm
    omega

theorem report_eq_stepLimit {f : Failure} {r r' : Result} {message : Bytes}
    (h : f.report r = .failed .stepLimit message r') : f.trap.kind = .stepLimit ∧ r = r' := by
  unfold Failure.report at h
  grind

theorem exists_report_of_stepLimit {f : Failure} (hsite : f.site = none)
    (h : f.trap.kind = .stepLimit) (r : Result) :
    ∃ message, f.report r = .failed .stepLimit message r := by
  obtain ⟨t, site⟩ := f
  cases t with
  | stepLimit k => exact ⟨_, by rw [Failure.report, hsite]; rfl⟩
  | _ => cases h

end

/-- The step limit only cuts calls short. Let a limit not be lower than another that is there. A
call that ends other than by the lower limit ends the same way, in the same state, under both. A
call that the lower limit ends, if that is positive and was not passed before, stands at just that
many steps, and under the other limit the call passes through the same state. -/
theorem callFunction_cut_short (img : Image) (entry : Name) (args : List Int64) (s : State)
    {n m : Int64} (hn : n ≠ 0) (hle : m = 0 ∨ n ≤ m) :
    ((∀ message result, (img.callFunction (.steps n) entry args s).1 ≠
        .failed .stepLimit message result) →
      img.callFunction (.steps m) entry args s = img.callFunction (.steps n) entry args s) ∧
    ∀ message result s', img.callFunction (.steps n) entry args s =
        (.failed .stepLimit message result, s') → 0 < n → (s.steps : Int) ≤ n.toInt →
      (s'.steps : Int) = n.toInt ∧ result.steps = s'.steps ∧
        ∃ t, img.Starts entry args s t ∧ img.Visits (.steps m) t s' := by
  have hcounts := State.startCall_leaves (P := (·.steps = s.steps))
    (fun _ _ hs h => h.steps.trans hs) rfl args
  unfold Image.callFunction
  cases hentry : img.labels[entry]? with
  | none =>
    refine ⟨fun _ => rfl, fun message result s' h => ?_⟩
    have hkind : (Trap.unknownEntry entry).kind = .stepLimit :=
      (report_eq_stepLimit (f := ⟨.unknownEntry entry, none⟩) (Prod.ext_iff.mp h).1).1
    cases hkind
  | some i =>
    cases hstart : (do ((← (s.alignStack args).passArgs args).push exitAddress) : Outcome) with
    | error e =>
      rw [hstart] at hcounts
      refine ⟨fun _ => rfl, fun message result s' h => ?_⟩
      exact absurd (report_eq_stepLimit (Prod.ext_iff.mp h).1).1 hcounts.2
    | ok u =>
      rw [hstart] at hcounts
      simp only
      cases hrun : img.run (.steps n) ((Limits.steps n).fuel { u with ip := i })
          { u with ip := i } with
      | mk f v =>
      constructor
      · intro h
        rw [run_of_le hn hle (fuel_le hn hle), hrun]
        intro f' hf' hsite hkind
        rw [hrun] at hf'
        cases hf'
        obtain ⟨message, hreport⟩ := exists_report_of_stepLimit hsite hkind v.result
        exact h message v.result hreport
      · intro message result s' h hpos hsteps
        cases f with
        | none => cases h
        | some f =>
          obtain ⟨hreport, rfl⟩ := Prod.ext_iff.mp h
          obtain ⟨hkind, rfl⟩ := report_eq_stepLimit hreport
          have hu : u.steps = s.steps := hcounts
          have hfuel : n.toInt.toNat < u.steps + (Limits.steps n).fuel { u with ip := i } := by
            rw [Limits.fuel, if_neg (show (Limits.steps n).maxSteps ≠ 0 from hn)]
            show n.toInt.toNat < u.steps + (n.toInt.toNat - u.steps + 2)
            omega
          obtain ⟨hcount, hvisits⟩ := visits_of_stepLimit (s := { u with ip := i }) hn hle
            (show (u.steps : Int) ≤ _ by rw [hu]; exact hsteps) hfuel hrun hkind
          exact ⟨hcount, rfl, _, ⟨i, u, hentry, hstart, rfl⟩, hvisits⟩

/-- A function that runs forever and one that returns. -/
def spinning : Program where
  globals := []
  funcs := ["f", "g"]
  code := [.label "f", .jump .jmp "f", .label "g", .ret]

/-- Three steps cut the first function short where five pass, and are enough for the second. -/
theorem spinning_cut_short :
    (∃ message result s', (load spinning).1.callFunction (.steps 3) "f" [] (load spinning).2 =
        (.failed .stepLimit message result, s') ∧ result.steps = 3 ∧
      ∃ t, (load spinning).1.Starts "f" [] (load spinning).2 t ∧
        (load spinning).1.Visits (.steps 5) t s') ∧
    ∃ result s', (load spinning).1.callFunction (.steps 3) "g" [] (load spinning).2 =
        (.finished result, s') ∧
      (load spinning).1.callFunction (.steps 0) "g" [] (load spinning).2 =
        (.finished result, s') := by
  refine ⟨?_, ?_⟩
  · obtain ⟨message, result, s', h⟩ : ∃ message result s', (load spinning).1.callFunction (.steps 3)
        "f" [] (load spinning).2 = (.failed .stepLimit message result, s') := ⟨_, _, _, rfl⟩
    obtain ⟨hcount, hresult, hvisits⟩ := (callFunction_cut_short (load spinning).1 "f" []
      (load spinning).2 (n := 3) (m := 5) (by decide) (by decide)).2 message result s' h (by decide)
      (by decide)
    refine ⟨message, result, s', h, ?_, hvisits⟩
    rw [hresult]
    exact Int.ofNat.inj hcount
  · obtain ⟨result, s', h⟩ : ∃ result s', (load spinning).1.callFunction (.steps 3) "g" []
        (load spinning).2 = (.finished result, s') := ⟨_, _, rfl⟩
    have hsame := (callFunction_cut_short (load spinning).1 "g" [] (load spinning).2 (n := 3) (m := 0)
      (by decide) (by decide)).1 fun message result => by rw [h]; exact nofun
    exact ⟨result, s', h, hsame.trans h⟩

end X64Backend.Machine
