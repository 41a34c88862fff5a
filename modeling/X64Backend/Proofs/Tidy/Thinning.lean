import X64Backend.Proofs.Layout
import X64Backend.Proofs.Machine.Blocks
import X64Backend.Proofs.Machine.Calls
import X64Backend.Proofs.Machine.Moved

/-! # Thinning code

Code is thinned by dropping some of its instructions and sending its jumps elsewhere. What
is dropped is either never reached or does nothing but go on to the next instruction, and
a jump lands in front of the same code as before. Then thin code runs as the code it was
made from does, in no more steps.
-/

namespace X64Backend.Machine

open Asm

/-- A run of code until the position is behind its last instruction or an instruction
fails, with the number of steps. -/
inductive Image.Runs (img : Image) : Nat → State → Ending → Prop
  | left {s : State} (hip : s.ip = img.code.size) : Runs img 0 s (.finished s)
  | failed {s s' : State} {x : Instr} {f : Failure} (hx : img.At s x)
      (h : img.step s = .error (f, s')) : Runs img 1 s (.failed f.trap s')
  | step {n : Nat} {s s' : State} {x : Instr} {e : Ending} (hx : img.At s x)
      (h : img.step s = .ok s') (rest : Runs img n s' e) : Runs img (n + 1) s e

/-- States that differ in the position and the count of steps only. -/
def State.Alike (s t : State) : Prop := t = s.moved t.ip t.steps

/-- Endings of one kind, with the same trap if they failed, in states that differ in the
position and the count of steps only. -/
def Ending.Alike : Ending → Ending → Prop
  | .finished s, .finished t => s.Alike t
  | .failed e s, .failed e' t => e = e' ∧ s.Alike t
  | _, _ => False

/-- From every state at the first instruction, each of two codes ends if the other does, in
the same way, and the second takes no more steps. -/
def SameRuns (globals : Std.TreeMap Name Int64) (code out : List Instr) : Prop :=
  ∀ s : State, s.ip = 0 →
    (∀ n e, (imageOf globals code).Runs n s e →
      ∃ n' e', n' ≤ n ∧ (imageOf globals out).Runs n' s e' ∧ e.Alike e') ∧
    (∀ n' e', (imageOf globals out).Runs n' s e' →
      ∃ n e, n' ≤ n ∧ (imageOf globals code).Runs n s e ∧ e.Alike e')

theorem State.Alike.refl (s : State) : s.Alike s := rfl

theorem State.alike_moved (s : State) (i : Int) (n : Nat) : s.Alike (s.moved i n) := rfl

theorem State.Alike.symm {s t : State} (h : s.Alike t) : t.Alike s := by
  unfold State.Alike at h ⊢
  rw [h]
  rfl

theorem State.Alike.trans {s t u : State} (h : s.Alike t) (h' : t.Alike u) : s.Alike u := by
  unfold State.Alike at h h' ⊢
  rw [h', h]
  rfl

theorem Ending.Alike.refl (e : Ending) : e.Alike e := by
  cases e with
  | finished s => exact State.Alike.refl s
  | failed t s => exact ⟨rfl, .refl s⟩

theorem Ending.Alike.trans {e e' e'' : Ending} (h : e.Alike e') (h' : e'.Alike e'') :
    e.Alike e'' := by
  cases e with
  | finished s =>
    cases e' with
    | failed t s' => exact h.elim
    | finished s' =>
      cases e'' with
      | failed t s'' => exact h'.elim
      | finished s'' => exact State.Alike.trans h h'
  | failed t s =>
    cases e' with
    | finished s' => exact h.elim
    | failed t' s' =>
      cases e'' with
      | finished s'' => exact h'.elim
      | failed t'' s'' => exact ⟨h.1.trans h'.1, h.2.trans h'.2⟩

theorem SameRuns.refl (globals : Std.TreeMap Name Int64) (code : List Instr) :
    SameRuns globals code code :=
  fun _ _ => ⟨fun n e h => ⟨n, e, Nat.le_refl n, h, .refl e⟩,
    fun n e h => ⟨n, e, Nat.le_refl n, h, .refl e⟩⟩

theorem SameRuns.trans {globals : Std.TreeMap Name Int64} {a b c : List Instr}
    (hab : SameRuns globals a b) (hbc : SameRuns globals b c) : SameRuns globals a c := by
  intro s hs
  constructor
  · intro n e he
    obtain ⟨n', e', hn, he', halike⟩ := (hab s hs).1 n e he
    obtain ⟨n'', e'', hn', he'', halike'⟩ := (hbc s hs).1 n' e' he'
    exact ⟨n'', e'', Nat.le_trans hn' hn, he'', halike.trans halike'⟩
  · intro n e he
    obtain ⟨n', e', hn, he', halike⟩ := (hbc s hs).2 n e he
    obtain ⟨n'', e'', hn', he'', halike'⟩ := (hab s hs).2 n' e' he'
    exact ⟨n'', e'', Nat.le_trans hn hn', he'', halike'.trans halike⟩

theorem exists_holds {c : Cond} (h : c.name?.isSome) (l r : Int64) :
    ∃ b, c.holds l r = .ok b := by
  cases c with
  | other code => cases h
  | _ => exact ⟨_, rfl⟩

/-- A step is the execution of the instruction that the state stands before. -/
theorem Image.At.step_eq_ok {img : Image} {s s' : State} {x : Instr} (hx : img.At s x) :
    img.step s = .ok s' ↔ img.exec s.advance x = .ok s' := by
  obtain ⟨i, hip, hcode⟩ := hx
  rw [Image.step_eq hcode hip]
  cases img.exec s.advance x <;> simp

theorem Image.At.step_eq_error {img : Image} {s s' : State} {x : Instr} {t : Trap}
    (hx : img.At s x) : (∃ f : Failure, f.trap = t ∧ img.step s = .error (f, s')) ↔
      img.exec s.advance x = .error (t, s') := by
  obtain ⟨i, hip, hcode⟩ := hx
  rw [Image.step_eq hcode hip]
  cases img.exec s.advance x with
  | ok u => simp
  | error p =>
    constructor
    · rintro ⟨f, rfl, h⟩
      cases h
      rfl
    · intro h
      cases h
      exact ⟨_, rfl, rfl⟩

end X64Backend.Machine

namespace X64Backend.Tidy

open Asm Machine List

/-- Code whose instructions are marked: those that are true stay. -/
abbrev Marked := List (Instr × Bool)

/-- The code without its marks. -/
def Marked.source (m : Marked) : List Instr := m.map Prod.fst

/-- The instruction with the target of a jump replaced. -/
def retarget (dest : Name → Name) : Instr → Instr
  | .jump cond target => .jump cond (dest target)
  | x => x

/-- The instructions that stay, with the targets of jumps replaced. -/
def Marked.kept (dest : Name → Name) (m : Marked) : List Instr :=
  m.filterMap fun (x, stays) => if stays then some (retarget dest x) else none

/-- Where a position is after thinning: the number of instructions before it that stay. -/
def Marked.place (m : Marked) (i : Nat) : Nat := (m.take i).countP Prod.snd

/-- A jump to position `p` comes to a label that stays, over dropped instructions only. -/
def Marked.Lands (m : Marked) (p : Nat) (l : Name) : Prop :=
  ∃ q, p ≤ q ∧ (∀ i, p ≤ i → i < q → ∃ x, m[i]? = some (x, false)) ∧
    m[q]? = some (.label l, true)

/-- The dropped instruction at a position only goes on to the next one. -/
def Marked.Idle (m : Marked) (i : Nat) : Instr → Prop
  | .label _ | .comment _ => True
  | .jump _ target => position? m.source target = some (i + 1)
  | _ => False

/-- Jumps under conditions that have a meaning. -/
def jumps : Instr → Bool
  | .jump c _ => c.name?.isSome
  | _ => false

/-- Code that runs by itself: labels stand once, jumps go to them under conditions that
have a meaning, everything else is followed by the next instruction, and no symbol that an
operand needs is a label instead of a global. -/
structure Orderly (globals : Std.TreeMap Name Int64) (code : List Instr) : Prop where
  nodup : (labels code).Nodup
  defined : ∀ l ∈ targets code, l ∈ labels code
  executable : ∀ x ∈ code, proceeds x = true ∨ jumps x = true
  symbols : ∀ x ∈ code, ∀ n ∈ x.symbols, n ∈ globals ∨ n ∉ labels code

/-- The marks drop what is not reached or idle, and jumps land before the same code. -/
structure Thins (dest : Name → Name) (m : Marked) (reached : Nat → Prop) : Prop where
  start : reached 0
  kept {i : Nat} {x : Instr} : m[i]? = some (x, true) → reached i
  next {i : Nat} {x : Instr} {k : Bool} : m[i]? = some (x, k) → reached i →
    (∀ l, x ≠ .jump .jmp l) → reached (i + 1)
  target {i p : Nat} {c : Cond} {l : Name} {k : Bool} : m[i]? = some (.jump c l, k) →
    reached i → position? m.source l = some p → reached p
  lands {i p : Nat} {c : Cond} {l : Name} : m[i]? = some (.jump c l, true) →
    position? m.source l = some p → m.Lands p (dest l)
  idle {i : Nat} {x : Instr} : m[i]? = some (x, false) → reached i → m.Idle i x

section

variable {dest : Name → Name} {m : Marked} {i j : Nat} {x : Instr} {k : Bool}

theorem Marked.getElem?_source (h : m[i]? = some (x, k)) : m.source[i]? = some x := by
  simp [source, h]

theorem Marked.exists_of_source (h : m.source[i]? = some x) : ∃ k, m[i]? = some (x, k) := by
  simpa [source] using h

@[simp] theorem Marked.length_source (m : Marked) : m.source.length = m.length := by
  simp [source]

@[simp] theorem Marked.place_zero (m : Marked) : m.place 0 = 0 := rfl

theorem Marked.place_succ (h : m[i]? = some (x, k)) :
    m.place (i + 1) = m.place i + if k then 1 else 0 := by
  rw [place, place, take_add_one, h, countP_append]
  simp

theorem Marked.length_kept (m : Marked) (dest : Name → Name) :
    (m.kept dest).length = m.countP Prod.snd := by
  rw [kept, length_filterMap_eq_countP]
  apply countP_congr
  intro p _
  cases hp : p.2 <;> simp [hp]

theorem Marked.place_length (m : Marked) (dest : Name → Name) :
    m.place m.length = (m.kept dest).length := by
  rw [place, take_length, length_kept]

variable (dest) in
/-- An instruction that stays is found at its new place. -/
theorem Marked.getElem?_kept (h : m[i]? = some (x, true)) :
    (m.kept dest)[m.place i]? = some (retarget dest x) := by
  obtain ⟨hi, hget⟩ := List.getElem?_eq_some_iff.mp h
  have hsplit : m = m.take i ++ (x, true) :: m.drop (i + 1) := by
    rw [← hget, getElem_cons_drop, take_append_drop]
  have hkept : m.kept dest =
      Marked.kept dest (m.take i) ++ retarget dest x :: Marked.kept dest (m.drop (i + 1)) := by
    conv_lhs => rw [hsplit]
    simp [Marked.kept]
  have hplace : m.place i = (Marked.kept dest (m.take i)).length := by
    rw [Marked.length_kept, Marked.place]
  rw [hkept, hplace, getElem?_append_right (Nat.le_refl _), Nat.sub_self]
  rfl

/-- Dropped instructions have the place of what follows them. -/
theorem Marked.place_eq (hij : i ≤ j)
    (h : ∀ n, i ≤ n → n < j → ∃ x, m[n]? = some (x, false)) : m.place j = m.place i := by
  induction hij with
  | refl => rfl
  | @step j hij ih =>
    grind [place_succ, Nat.lt_succ_of_lt]

theorem Marked.mem_kept {y : Instr} (h : y ∈ m.kept dest) :
    ∃ (i : Nat) (x : Instr), m[i]? = some (x, true) ∧ y = retarget dest x := by
  obtain ⟨⟨x, stays⟩, hmem, hy⟩ := mem_filterMap.mp h
  obtain ⟨i, hi⟩ := mem_iff_getElem?.mp hmem
  cases stays with
  | false => cases hy
  | true => exact ⟨i, x, hi, (Option.some.inj hy).symm⟩

theorem label?_retarget (dest : Name → Name) (x : Instr) : (retarget dest x).label? = x.label? := by
  cases x <;> rfl

theorem Marked.labels_kept_sublist (m : Marked) (dest : Name → Name) :
    (labels (m.kept dest)).Sublist (labels m.source) := by
  induction m with
  | nil => exact List.Sublist.refl _
  | cons p rest ih =>
    obtain ⟨x, stays⟩ := p
    cases stays with
    | false => exact ih.trans (by simp [source])
    | true =>
      have hkept : Marked.kept dest ((x, true) :: rest) =
          retarget dest x :: Marked.kept dest rest := rfl
      rw [hkept, labels_cons, label?_retarget]
      simpa [source] using ih

end

section

variable {globals : Std.TreeMap Name Int64} {dest : Name → Name} {m : Marked}
  {reached : Nat → Prop} {i n : Nat} {x : Instr} {s : State} {e : Ending}

theorem Orderly.proceeds {code : List Instr} (h : Orderly globals code) (hx : x ∈ code) :
    proceeds x = true ∨ ∃ c l, x = .jump c l ∧ c.name?.isSome := by
  refine (h.executable x hx).imp_right fun hjump => ?_
  cases x with
  | jump c l => exact ⟨c, l, rfl, hjump⟩
  | _ => cases hjump

theorem Orderly.sameSymbols {code out : List Instr} (h : Orderly globals code)
    (hsub : ∀ l ∈ labels out, l ∈ labels code) (hx : x ∈ code) :
    SameSymbols (imageOf globals code) (imageOf globals out) x.symbols := by
  intro k hk
  simp only [Image.constValue, imageOf, labelTable_getElem?]
  rcases h.symbols x hx k hk with hglobal | hlabel
  · grind
  · rw [position?_eq_none.mpr hlabel, position?_eq_none.mpr fun hmem => hlabel (hsub k hmem)]

/-- A label that stays is where the jumps to it land. -/
theorem Marked.Lands.here {q : Nat} {l : Name} (h : m[q]? = some (.label l, true)) : m.Lands q l :=
  ⟨q, Nat.le_refl q, fun _ hi hlt => absurd hi (Nat.not_le.mpr hlt), h⟩

variable (dest) in
/-- A jump that stays finds its label at the place that its target went to. -/
theorem Marked.Lands.position? {p : Nat} {l : Name} (hnodup : (labels m.source).Nodup)
    (h : m.Lands p l) : position? (m.kept dest) l = some (m.place p) := by
  obtain ⟨q, hpq, hdropped, hq⟩ := h
  apply position?_eq_some_of_nodup (hnodup.sublist (m.labels_kept_sublist dest))
  rw [← Marked.place_eq hpq hdropped, Marked.getElem?_kept _ hq]
  rfl

variable (h : Thins dest m reached)

include h

variable (hord : Orderly globals m.source)

include hord in
/-- What is dropped does nothing but advance. -/
theorem Thins.exec_idle (hx : m[i]? = some (x, false)) (hi : reached i) (hip : s.ip = i) :
    (imageOf globals m.source).exec s.advance x = .ok s.advance := by
  have hidle := h.idle hx hi
  cases x with
  | label l | comment text => rfl
  | jump c l =>
    have hmem : Instr.jump c l ∈ m.source := mem_of_getElem? (Marked.getElem?_source hx)
    have hgoto : (imageOf globals m.source).goto s.advance l = .ok s.advance := by
      have hpos : (labelTable m.source)[l]? = some (i + 1) := by
        rw [labelTable_getElem?]
        exact hidle
      have hstay : { s.advance with ip := ((i + 1 : Nat) : Int) } = s.advance := by
        simp [State.advance, hip]
      simp only [Image.goto, imageOf, hpos, hstay]
    obtain hp | ⟨_, _, heq, hc⟩ := hord.proceeds hmem
    · cases hp
    · cases heq
      obtain ⟨b, hb⟩ := exists_holds hc s.advance.left s.advance.right
      simp only [Image.exec, hb]
      cases b with
      | true => exact hgoto
      | false => rfl
  | _ => exact hidle.elim

theorem Thins.reached_next (hx : m[i]? = some (x, false))
    (hi : reached i) : reached (i + 1) := by
  have hidle := h.idle hx hi
  cases x with
  | label l | comment text => exact h.next hx hi fun _ => nofun
  | jump c l => exact h.target hx hi hidle
  | _ => exact hidle.elim

include hord in
/-- What stays does at its new place what it did before, and goes where that went. -/
theorem Thins.exec_kept (hx : m[i]? = some (x, true)) (hip : s.ip = i) (n : Nat) :
    (∃ (s' : State) (j : Nat), (imageOf globals m.source).exec s.advance x = .ok s' ∧
      s'.ip = j ∧ reached j ∧ j ≤ m.length ∧
      (imageOf globals (m.kept dest)).exec (s.moved (m.place i) n).advance (retarget dest x) =
        .ok (s'.moved (m.place j) (n + 1))) ∨
    (∃ t s' u, (imageOf globals m.source).exec s.advance x = .error (t, s') ∧ s'.Alike u ∧
      (imageOf globals (m.kept dest)).exec (s.moved (m.place i) n).advance (retarget dest x) =
        .error (t, u)) := by
  have hmem : x ∈ m.source := mem_of_getElem? (Marked.getElem?_source hx)
  have hi := h.kept hx
  have hlt : i < m.length := (List.getElem?_eq_some_iff.mp hx).1
  have hplace : (m.place i : Int) + 1 = m.place (i + 1) := by
    rw [Marked.place_succ hx]
    rfl
  have hnext : s.advance.ip = ((i + 1 : Nat) : Int) := by
    rw [State.ip_advance, hip]
    rfl
  rw [State.advance_moved, hplace]
  -- An instruction goes on to the next one, unless it is a jump.
  rcases hord.proceeds hmem with hp | ⟨c, l, rfl, hc⟩
  · have hjump : ∀ c l, x ≠ .jump c l := by
      rintro c l rfl
      cases hp
    have hsame : retarget dest x = x := by
      cases x with
      | jump c l => exact absurd rfl (hjump c l)
      | _ => rfl
    have hsymbols := hord.sameSymbols (fun _ hl => (m.labels_kept_sublist dest).mem hl) hmem
    rw [hsame, exec_moved _ _ _ hp hsymbols]
    cases hexec : (imageOf globals m.source).exec s.advance x with
    | ok s' =>
      have hip' := ip_of_proceeds hp hexec
      exact .inl ⟨s', i + 1, rfl, hip'.trans hnext, h.next hx hi (hjump .jmp), hlt, rfl⟩
    | error p => exact .inr ⟨p.1, p.2, _, rfl, State.alike_moved _ _ _, rfl⟩
  · obtain ⟨b, hb⟩ := exists_holds hc s.left s.right
    simp only [retarget, Image.exec, State.left_moved, State.right_moved, State.left_advance,
      State.right_advance, hb]
    left
    cases b with
    | false =>
      have hcond : ∀ k, Instr.jump c l ≠ .jump .jmp k := by
        rintro k ⟨⟩
        cases hb
      exact ⟨s.advance, i + 1, rfl, hnext, h.next hx hi hcond, hlt, rfl⟩
    | true =>
      obtain ⟨p, hp⟩ := exists_position? (hord.defined l (mem_targets.mpr ⟨c, hmem⟩))
      have hp' := (h.lands hx hp).position? dest hord.nodup
      rw [← labelTable_getElem?] at hp'
      have hp'' := hp
      rw [← labelTable_getElem?] at hp''
      have hple := position?_lt hp
      rw [Marked.length_source] at hple
      refine ⟨{ s.advance with ip := p }, p, ?_, rfl, h.target hx hi hp, by omega, ?_⟩
      · simp only [Image.goto, imageOf, hp'']
      · simp only [Image.goto, imageOf, hp']
        rfl

omit h

variable (globals) in
theorem Marked.at_source (hx : m[i]? = some (x, k)) (hip : s.ip = i) :
    (imageOf globals m.source).At s x :=
  ⟨i, hip, by simpa [imageOf] using Marked.getElem?_source hx⟩

theorem Marked.at_kept (hx : m[i]? = some (x, true)) (n : Nat) :
    (imageOf globals (m.kept dest)).At (s.moved (m.place i) n) (retarget dest x) :=
  ⟨m.place i, rfl, by simpa [imageOf] using Marked.getElem?_kept _ hx⟩

theorem Marked.exists_of_at (hx : (imageOf globals m.source).At s x) (hip : s.ip = i) :
    ∃ k, m[i]? = some (x, k) := by
  obtain ⟨j, hj, hx⟩ := hx
  obtain rfl : j = i := by omega
  exact Marked.exists_of_source (by simpa [imageOf] using hx)

include h

include hord

/-- Each run of the code has its counterpart in the thin code, in as many steps at most. -/
theorem Thins.runs_kept
    (hrun : (imageOf globals m.source).Runs n s e) (hip : s.ip = i) (hi : reached i) (k : Nat) :
    ∃ n' e', n' ≤ n ∧ (imageOf globals (m.kept dest)).Runs n' (s.moved (m.place i) k) e' ∧
      e.Alike e' := by
  induction hrun generalizing i k with
  | @left s hend =>
    have hlen : i = m.length := by
      have hsize : (imageOf globals m.source).code.size = m.length := by simp [imageOf]
      omega
    refine ⟨0, _, Nat.le_refl 0, .left ?_, State.alike_moved s _ k⟩
    rw [State.ip_moved, hlen, m.place_length dest]
    simp [imageOf]
  | @failed s s' x f hx hstep =>
    obtain ⟨stays, hm⟩ := Marked.exists_of_at hx hip
    have hexec := hx.step_eq_error.mp ⟨f, rfl, hstep⟩
    cases stays with
    | false =>
      rw [h.exec_idle hord hm hi hip] at hexec
      cases hexec
    | true =>
      rcases h.exec_kept hord hm hip k with ⟨_, _, hok, _⟩ | ⟨t, u, u', hfail, halike, hfail'⟩
      · rw [hexec] at hok
        cases hok
      · rw [hexec] at hfail
        cases hfail
        obtain ⟨f', htrap, hstep'⟩ := (Marked.at_kept hm k).step_eq_error.mpr hfail'
        refine ⟨1, _, Nat.le_refl 1, .failed (Marked.at_kept hm k) hstep', ?_⟩
        exact ⟨htrap.symm, halike⟩
  | @step n s s' x e hx hstep _ ih =>
    obtain ⟨stays, hm⟩ := Marked.exists_of_at hx hip
    have hexec := hx.step_eq_ok.mp hstep
    cases stays with
    | false =>
      -- The thin code waits while a dropped instruction is passed.
      rw [h.exec_idle hord hm hi hip] at hexec
      cases hexec
      have hnext : s.advance.ip = ((i + 1 : Nat) : Int) := by
        rw [State.ip_advance, hip]
        rfl
      obtain ⟨n', e', hn, hrun', halike⟩ := ih hnext (h.reached_next hm hi) k
      rw [Marked.place_succ hm] at hrun'
      exact ⟨n', e', Nat.le_succ_of_le hn, hrun', halike⟩
    | true =>
      rcases h.exec_kept hord hm hip k with ⟨u, j, hok, hj, hreach, _, hok'⟩ |
        ⟨_, _, _, hfail, _⟩
      · rw [hexec] at hok
        cases hok
        obtain ⟨n', e', hn, hrun', halike⟩ := ih hj hreach (k + 1)
        have hstep' := (Marked.at_kept hm k).step_eq_ok.mpr hok'
        exact ⟨n' + 1, e', Nat.succ_le_succ hn, .step (Marked.at_kept hm k) hstep' hrun', halike⟩
      · rw [hexec] at hfail
        cases hfail

/-- Dropped instructions are passed until one that stays or the end. -/
theorem Thins.exists_passes (hi : reached i) (hip : s.ip = i) (hle : i ≤ m.length) :
    ∃ (j : Nat) (u : State), u.ip = j ∧ reached j ∧ m.place j = m.place i ∧ s.Alike u ∧
      (j = m.length ∨ ∃ x, m[j]? = some (x, true)) ∧
      ∀ n e, (imageOf globals m.source).Runs n u e →
        ∃ n', n ≤ n' ∧ (imageOf globals m.source).Runs n' s e := by
  -- The distance to the end goes down with each instruction passed.
  induction hd : m.length - i generalizing i s with
  | zero =>
    have hend : i = m.length := by omega
    exact ⟨i, s, hip, hi, rfl, .refl s, .inl hend, fun n e hrun => ⟨n, Nat.le_refl n, hrun⟩⟩
  | succ d ih =>
    have hlt : i < m.length := by omega
    obtain ⟨⟨x, stays⟩, hm⟩ : ∃ p, m[i]? = some p := ⟨_, getElem?_eq_getElem hlt⟩
    cases stays with
    | true =>
      exact ⟨i, s, hip, hi, rfl, .refl s, .inr ⟨x, hm⟩, fun n e hrun => ⟨n, Nat.le_refl n, hrun⟩⟩
    | false =>
      have hnext : s.advance.ip = ((i + 1 : Nat) : Int) := by
        rw [State.ip_advance, hip]
        rfl
      obtain ⟨j, u, hu, hj, hplace, halike, hstays, hruns⟩ :=
        ih (h.reached_next hm hi) hnext hlt (by omega)
      refine ⟨j, u, hu, hj, ?_, ?_, hstays, ?_⟩
      · rw [hplace, Marked.place_succ hm]
        rfl
      · exact State.Alike.trans (State.alike_moved s _ _) halike
      · intro n e hrun
        obtain ⟨n', hn, hrun'⟩ := hruns n e hrun
        have hat := Marked.at_source globals hm hip
        have hstep := hat.step_eq_ok.mpr (h.exec_idle hord hm hi hip)
        exact ⟨n' + 1, Nat.le_succ_of_le hn, .step hat hstep hrun'⟩

/-- Where the thin code has an instruction, the code comes to that instruction. -/
theorem Thins.exists_kept
    {t : State} {y : Instr} (hy : (imageOf globals (m.kept dest)).At t y) (hip : s.ip = i)
    (hi : reached i) (hle : i ≤ m.length) (ht : t.ip = m.place i) (hst : s.Alike t) :
    ∃ (j : Nat) (u : State) (x : Instr), u.ip = j ∧ m[j]? = some (x, true) ∧
      y = retarget dest x ∧ t = u.moved (m.place j) t.steps ∧
      ∀ n e, (imageOf globals m.source).Runs n u e →
        ∃ n', n ≤ n' ∧ (imageOf globals m.source).Runs n' s e := by
  obtain ⟨j, u, hu, hj, hplace, halike, hstays, hruns⟩ := h.exists_passes hord hi hip hle
  obtain ⟨k, hk, hy⟩ := hy
  have hkj : k = m.place j := by omega
  have hyj : (m.kept dest)[m.place j]? = some y := by
    rw [← hkj]
    simpa [imageOf] using hy
  have hx : ∃ x, m[j]? = some (x, true) := by
    grind [hstays.resolve_left, m.place_length, getElem?_eq_none]
  obtain ⟨x, hx⟩ := hx
  rw [Marked.getElem?_kept _ hx] at hyj
  refine ⟨j, u, x, hu, hx, (Option.some.inj hyj).symm, ?_, hruns⟩
  rw [hplace, ← ht]
  exact halike.symm.trans hst

/-- Each run of the thin code comes from one of the code, of as many steps at least. -/
theorem Thins.runs_source
    {t : State} (hrun : (imageOf globals (m.kept dest)).Runs n t e) (hip : s.ip = i)
    (hi : reached i) (hle : i ≤ m.length) (ht : t.ip = m.place i) (hst : s.Alike t) :
    ∃ n' e', n ≤ n' ∧ (imageOf globals m.source).Runs n' s e' ∧ e'.Alike e := by
  -- On the run of the thin code, from every state that is like the one it is in.
  induction hrun generalizing i s with
  | @left t hend =>
    obtain ⟨j, u, hu, hj, hplace, halike, hstays, hruns⟩ := h.exists_passes hord hi hip hle
    have hsize : m.place j = (m.kept dest).length := by
      grind [imageOf]
    have hlen : j = m.length := by
      refine hstays.resolve_right ?_
      rintro ⟨x, hx⟩
      have hget := Marked.getElem?_kept dest hx
      rw [hsize, getElem?_eq_none (Nat.le_refl _)] at hget
      cases hget
    have hleft : (imageOf globals m.source).Runs 0 u (.finished u) := by
      apply Image.Runs.left
      rw [hu, hlen]
      simp [imageOf]
    obtain ⟨n', hn, hrun'⟩ := hruns 0 _ hleft
    exact ⟨n', _, hn, hrun', halike.symm.trans hst⟩
  | @failed t t' y f hy hstep =>
    obtain ⟨j, u, x, hu, hx, rfl, htu, hruns⟩ := h.exists_kept hord hy hip hi hle ht hst
    have hexec := hy.step_eq_error.mp ⟨f, rfl, hstep⟩
    rw [htu] at hexec
    rcases h.exec_kept hord hx hu t.steps with ⟨_, _, _, _, _, _, hok⟩ |
      ⟨trap, u', t'', hfail, halike, hfail'⟩
    · rw [hok] at hexec
      cases hexec
    · rw [hfail'] at hexec
      cases hexec
      have hat := Marked.at_source globals hx hu
      obtain ⟨f', htrap, hstep'⟩ := hat.step_eq_error.mpr hfail
      obtain ⟨n', hn, hrun'⟩ := hruns 1 _ (.failed hat hstep')
      exact ⟨n', _, hn, hrun', htrap, halike⟩
  | @step n t t' y e hy hstep _ ih =>
    obtain ⟨j, u, x, hu, hx, rfl, htu, hruns⟩ := h.exists_kept hord hy hip hi hle ht hst
    have hexec := hy.step_eq_ok.mp hstep
    rw [htu] at hexec
    rcases h.exec_kept hord hx hu t.steps with ⟨u', k, hok, hk, hreach, hkle, hok'⟩ |
      ⟨_, _, _, _, _, hfail⟩
    · rw [hok'] at hexec
      cases hexec
      obtain ⟨n', e', hn, hrun', halike⟩ := ih hk hreach hkle rfl (State.alike_moved u' _ _)
      have hat := Marked.at_source globals hx hu
      obtain ⟨n'', hn', hrun''⟩ := hruns _ _ (.step hat (hat.step_eq_ok.mpr hok) hrun')
      exact ⟨n'', e', by omega, hrun'', halike⟩
    · rw [hfail] at hexec
      cases hexec

/-- Thin code runs as the code it was made from. -/
theorem Thins.sameRuns :
    SameRuns globals m.source (m.kept dest) := by
  intro s hs
  constructor
  · intro n e hrun
    obtain ⟨n', e', hn, hrun', halike⟩ := h.runs_kept hord hrun hs h.start s.steps
    have hself : s.moved ((m.place 0 : Nat) : Int) s.steps = s :=
      congrArg (s.moved · s.steps) hs.symm
    rw [hself] at hrun'
    exact ⟨n', e', hn, hrun', halike⟩
  · intro n e hrun
    exact h.runs_source hord hrun hs h.start (Nat.zero_le _) hs (.refl s)

/-- Thin code is orderly as the code it was made from. -/
theorem Thins.orderly :
    Orderly globals (m.kept dest) := by
  have hsub := m.labels_kept_sublist dest
  have hsource : ∀ {i x}, m[i]? = some (x, true) → x ∈ m.source :=
    fun hx => mem_of_getElem? (Marked.getElem?_source hx)
  constructor
  · exact hord.nodup.sublist hsub
  · intro l hl
    obtain ⟨c, hjump⟩ := mem_targets.mp hl
    obtain ⟨i, x, hx, heq⟩ := Marked.mem_kept hjump
    cases x with
    | jump c' l' =>
      obtain ⟨_, rfl⟩ := Instr.jump.inj heq
      have hdefined := hord.defined l' (mem_targets.mpr ⟨c', hsource hx⟩)
      obtain ⟨p, hp⟩ := exists_position? hdefined
      rw [← isSome_position?, (h.lands hx hp).position? _ hord.nodup]
      rfl
    | _ => cases heq
  · intro y hy
    obtain ⟨i, x, hx, rfl⟩ := Marked.mem_kept hy
    have hexecutable := hord.executable x (hsource hx)
    cases x with
    | jump c l | _ => exact hexecutable
  · intro y hy n hn
    obtain ⟨i, x, hx, rfl⟩ := Marked.mem_kept hy
    have hsymbols : (retarget dest x).symbols = x.symbols := by cases x <;> rfl
    rw [hsymbols] at hn
    exact (hord.symbols x (hsource hx) n hn).imp_right fun hnot hl => hnot (hsub.mem hl)

omit hord

omit h

end

end X64Backend.Tidy
