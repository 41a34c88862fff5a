import X64Backend.Proofs.Alloc.Keeping

/-! # Code made of blocks

Code whose instructions have blocks in their places is followed block by block by code that
keeps registers elsewhere.
-/

namespace X64Backend.Machine

open Asm

section

variable {img : Image} {ok : State → Instr → Prop} {calls : Calls} {P : Outcome → Prop}
  {xs : List Instr} {i : Nat} {s s' : State}

theorem Image.advances_execAll (hfalls : ∀ x ∈ xs, falls x = true) (hne : xs ≠ [])
    (hcode : img.Holds i xs) (hip : s.ip = i) (hok : img.Clears ok xs s)
    (hP : P (img.execAll xs s)) : img.Advances calls ok P s := by
  induction xs generalizing i s with
  | nil => exact absurd rfl hne
  | cons x xs ih =>
    obtain ⟨hx, hxs⟩ := List.forall_mem_cons.mp hfalls
    have hat : img.At s x := ⟨i, hip, hcode.head⟩
    rw [execAll] at hP
    cases hexec : img.exec s.advance x with
    | error e =>
      refine .last hat hok.1 fun o ho => ?_
      rw [(moves_of_falls hx).mp ho, hexec]
      rwa [hexec] at hP
    | ok s' =>
      rw [hexec] at hP
      by_cases hnil : xs = []
      · subst hnil
        refine .last hat hok.1 fun o ho => ?_
        rwa [(moves_of_falls hx).mp ho, hexec]
      · refine .more hat hok.1 (fun s'' hs'' => ?_) fun e he => ?_
        · obtain rfl : s'' = s' :=
            Except.ok.inj (((moves_of_falls hx).mp hs'').trans hexec)
          refine ih hxs hnil hcode.tail ?_ (hok.2 s'' hexec) hP
          rw [ip_of_exec hx hexec, State.ip_advance, hip]
          rfl
        · cases ((moves_of_falls hx).mp he).trans hexec

theorem Image.ip_execAll (hfalls : ∀ x ∈ xs, falls x = true) (h : img.execAll xs s = .ok s') :
    s'.ip = s.ip + xs.length := by
  induction xs generalizing s with
  | nil =>
    cases h
    simp
  | cons x xs ih =>
    obtain ⟨hx, hxs⟩ := List.forall_mem_cons.mp hfalls
    obtain ⟨s'', hexec, hrest⟩ := bind_eq_ok.mp h
    rw [ih hxs hrest, ip_of_exec hx hexec, State.ip_advance, List.length_cons]
    omega

theorem Outcome.Related.refine {R R' : State → State → Prop} {E E' : Ending → Ending → Prop}
    {o o' : Outcome} (h : Outcome.Related R E o o')
    (hR : ∀ {s t}, o = .ok s → o' = .ok t → R s t → R' s t)
    (hE : ∀ {e s e' t}, E (.failed e s) (.failed e' t) → E' (.failed e s) (.failed e' t)) :
    Outcome.Related R' E' o o' := by
  cases h with
  | ok h => exact .ok (hR rfl rfl h)
  | error h => exact .error (hE h)

end

end X64Backend.Machine

namespace X64Backend.Alloc.Keeping

open Asm Machine Dataflow List

section

variable {K : Keeping} {T U : Reg → Prop} {img img' : Image} {s t : State} {calls : Calls}
  {E : Ending → Ending → Prop} {code pre post : List Instr} {blocks : List (List Instr)}
  {block : List Instr} {i start : Nat} {x : Instr}

theorem falls_of_block {loc : Nat → Operand} {slots : Slots} (h : Block loc slots U x block)
    (hx : falls x = true) : ∀ y ∈ block, falls y = true := by
  refine h.forall_mem (fun _ _ => rfl) (fun _ _ _ => rfl) fun {fs y store} hcore => ?_
  have hy : falls y = falls x := by cases hcore <;> rfl
  rw [hy, hx]

/-- The states stand before an instruction and its block, and registers are kept. -/
def Meets (K : Keeping) (T : Reg → Prop) (start : Nat) (blocks : List (List Instr)) (s t : State) :
    Prop :=
  ∃ i ≤ blocks.length, s.ip = (i : Nat) ∧ t.ip = (start + offset blocks i : Nat) ∧ K.Holds T s t

theorem Meets.behind (hblock : blocks[i]? = some block) (hs : s.ip = (i + 1 : Nat))
    (ht : t.ip = (start + offset blocks i + block.length : Nat)) (hag : K.Holds T s t) :
    K.Meets T start blocks s t := by
  refine ⟨i + 1, (List.getElem?_eq_some_iff.mp hblock).1, hs, ?_, hag⟩
  rw [ht, offset_succ hblock, Nat.add_assoc]

/-- Calls go on with registers kept, and end alike. -/
def Calling (K : Keeping) (T : Reg → Prop) (calls : Calls) (E : Ending → Ending → Prop) : Prop :=
  ∀ s t c o', K.Holds T s t → calls c t o' → ∃ o, calls c s o ∧
    Outcome.Related (fun s' t' => K.Holds T s' t' ∧ s'.ip = s.ip ∧ t'.ip = t.ip) E o o'

section

variable (hT : ∀ q, T (.machine q)) (hU : ∀ r, U r → ¬ T r ∧ K.slots[r.name]? = none)
  (hE : ∀ {e s e' t}, e.kind = e'.kind → SameWorld K.Z s t → E (.failed e s) (.failed e' t))
  (hblock : blocks[i]? = some block) (hs : s.ip = i) (ht : t.ip = (start + offset blocks i : Nat))
  (hag : K.Holds T s t)

include hT hU in
theorem spare_of_free : K.Spare U := by
  refine fun r hr => ⟨?_, (hU r hr).2⟩
  rintro rfl
  exact (hU _ hr).1 (hT .rbp)

include hT hU ht hag

/-- Fetches before the last instruction of a block. -/
theorem advances_fetches {P : Outcome → Prop} {fs : Fetches} {rs : List Reg} {y : Instr}
    (hfs : Fetching K.slots U rs fs)
    (hholds : img'.Holds (start + offset blocks i) (fs.code K.loc ++ [y]))
    (hlast : ∀ t' : State, t'.ip = (start + offset blocks i + (fs.code K.loc).length : Nat) →
      K.Holds T s t' → K.Fetched fs s t' → Apart K.Hidden img' t' y ∧
        ∀ o', img'.Moves calls t' y o' → P o') :
    img'.Advances calls (Apart K.Hidden img') P t := by
  obtain ⟨t', hseq, hag', hfetched, _⟩ := fetches_run img' hfs (spare_of_free hT hU) hag
    fun r (hr : T r) => ⟨hr, fun hr' => (hU r hr').1 hr⟩
  have hip : t'.ip = (start + offset blocks i + (fs.code K.loc).length : Nat) := by
    rw [hseq.ip_eq, ht]
    rfl
  obtain ⟨hok, hP⟩ := hlast t' hip hag' hfetched
  exact hseq.advances hholds.left ht (.last ⟨_, hip, hholds.right.head⟩ hok hP)

include hblock hs hE

/-- The block of an instruction that the next one follows. -/
theorem advances_falls (h : Block K.loc K.slots U x block) (hx : falls x = true)
    (hholds : img'.Holds (start + offset blocks i) block)
    (hsuits : K.Suits U T T img img' s.advance x) :
    img'.Advances calls (Apart K.Hidden img') (fun o' => ∃ o, img.Moves calls s x o ∧
      Outcome.Related (K.Meets T start blocks) E o o') t := by
  have hfalls := falls_of_block h hx
  have hread : ∀ r, U r → r ∉ uses x := fun r hr hmem =>
    (hU r hr).1 ((hsuits.read r hmem).trusted (hU r hr).2)
  obtain ⟨hrelated, hclears⟩ := @run_block _ _ _ _ _ _ _ _ _ _ (fun _ => False) h hx
    (spare_of_free hT hU) hag hread hsuits
  refine Image.advances_execAll hfalls h.ne_nil hholds ht hclears
    ⟨_, (moves_of_falls hx).mpr rfl, hrelated.refine (fun {s' t'} hs' ht' hag' => ?_) fun h =>
      hE h.1 h.2⟩
  refine .behind hblock ?_ ?_ hag'
  · rw [ip_of_exec hx hs', State.ip_advance, hs]
    rfl
  · rw [Image.ip_execAll hfalls ht', ht]
    rfl

/-- The block of a jump. -/
theorem advances_jump {c : Cond} {l : Name} (h : Block K.loc K.slots U (.jump c l) block)
    (hholds : img'.Holds (start + offset blocks i) block)
    (hlabels : ∀ l : Name, img'.labels[l]? = (img.labels[l]?).map (start + offset blocks ·))
    (hbound : ∀ (l : Name) (j : Nat), img.labels[l]? = some j → j ≤ blocks.length) :
    img'.Advances calls (Apart K.Hidden img') (fun o' => ∃ o, img.Moves calls s (.jump c l) o ∧
      Outcome.Related (K.Meets T start blocks) E o o') t := by
  cases h with
  | @around fs _ y store hfs hcore =>
    cases hcore with
    | bare _ =>
      refine advances_fetches hT hU ht hag hfs hholds fun t' hip hag' _ =>
        ⟨⟨fun _ => nofun, nofun⟩, ?_⟩
      rintro o' rfl
      refine ⟨_, rfl, ?_⟩
      have hcond : c.holds t'.advance.left t'.advance.right =
          c.holds s.advance.left s.advance.right := by
        simp only [State.left_advance, State.right_advance, hag'.left, hag'.right]
      simp only [Image.exec, hcond, Image.goto, hlabels]
      cases c.holds s.advance.left s.advance.right with
      | error defect => exact .error (hE rfl hag'.advance.world)
      | ok taken =>
        cases taken with
        | false =>
          refine .ok (.behind hblock ?_ ?_ hag'.advance)
          · rw [State.ip_advance, hs]
            rfl
          · rw [State.ip_advance, hip, length_append, length_singleton]
            rfl
        | true =>
          cases hl : img.labels[l]? with
          | none => exact .error (hE rfl hag'.advance.world)
          | some j => exact .ok ⟨j, hbound l j hl, rfl, rfl, hag'.advance.moved j _ _ _⟩

/-- The block of a call. -/
theorem advances_call {a : Operand} (h : Block K.loc K.slots U (.call a) block)
    (hcalls : K.Calling T calls E) (hholds : img'.Holds (start + offset blocks i) block)
    (hsuits : K.Suits U T T img img' s.advance (.call a)) :
    img'.Advances calls (Apart K.Hidden img') (fun o' => ∃ o, img.Moves calls s (.call a) o ∧
      Outcome.Related (K.Meets T start blocks) E o o') t := by
  cases h with
  | @around fs _ y store hfs hcore =>
    have hwords := words_of_core hcore
    cases hcore with
    | bare h => cases h
    | @call _ b ha =>
      refine advances_fetches hT hU ht hag hfs hholds fun t' hip hag' hfetched => ?_
      have hok : Apart K.Hidden img' t'.advance (.call b) :=
        apart_of_words hag'.advance hfetched.advance hsuits (fun h => nomatch h) hwords
      refine ⟨⟨hok.words, hok.stack⟩, fun o' ho' => ?_⟩
      have hcallee := callee_of_readAs ha hag'.advance hfetched.advance hsuits
      simp only [Image.Moves] at ho' ⊢
      rw [← hcallee] at ho'
      cases hresult : img.callee s.advance a with
      | error e =>
        rw [hresult] at ho'
        obtain rfl := ho'
        exact ⟨_, rfl, .error (hE rfl hag'.advance.world)⟩
      | ok callee =>
        rw [hresult] at ho'
        obtain ⟨o, ho, hrelated⟩ := hcalls _ _ _ _ hag'.advance ho'
        refine ⟨o, ho, hrelated.refine (fun {s₁ t₁} _ _ h => ?_) fun h => h⟩
        obtain ⟨hag₁, hs₁, ht₁⟩ := h
        refine .behind hblock ?_ ?_ hag₁
        · rw [hs₁, State.ip_advance, hs]
          rfl
        · rw [ht₁, State.ip_advance, hip, length_append, length_singleton]
          rfl

end

/-- What may be in the place of an instruction. A comment may be left out. -/
inductive Stands (K : Keeping) (T : Reg → Prop) : Instr → List Instr → Prop
  | block {U : Reg → Prop} {x : Instr} {block : List Instr}
      (hU : ∀ r, U r → ¬ T r ∧ K.slots[r.name]? = none) (h : Block K.loc K.slots U x block) :
      Stands K T x block
  | dropped (text : Bytes) : Stands K T (.comment text) []

theorem Stands.keepsLabel (h : K.Stands T x block) : KeepsLabel x block := by
  cases h with
  | block _ h => exact h.keepsLabel
  | dropped text => exact ⟨fun l hl => (nomatch hl), fun _ => rfl⟩

/-- Code whose instructions can be executed with registers kept elsewhere, and the blocks in
their places. -/
structure Blocks (K : Keeping) (T : Reg → Prop) (code : List Instr) (blocks : List (List Instr)) :
    Prop where
  machine : ∀ q, T (.machine q)
  stands : List.Forall₂ (K.Stands T) code blocks
  read : ∀ x ∈ code, ∀ r ∈ uses x, K.Trusts T r
  write : ∀ x ∈ code, ∀ r ∈ defs x, r.Proper ∧ r ≠ .rbp
  symbols : ∀ x ∈ code, ∀ n ∈ x.symbols, n ∉ labels code
  ret : .ret ∉ code

theorem holds_flatten {globals : Std.TreeMap Name Int64} (h : blocks[i]? = some block) :
    (imageOf globals (pre ++ blocks.flatten ++ post)).Holds (pre.length + offset blocks i) block := by
  intro j y hy
  have hlt : j < block.length := (List.getElem?_eq_some_iff.mp hy).1
  rw [imageOf, getElem?_toArray, flatten_eq h, offset, append_assoc, Nat.add_assoc,
    getElem?_append_right (Nat.le_add_right _ _), Nat.add_sub_cancel_left, append_assoc,
    getElem?_append_right (Nat.le_add_right _ _), Nat.add_sub_cancel_left, append_assoc,
    getElem?_append_left hlt, hy]

/-- The blocks go along with the code, between code without labels. -/
theorem Blocks.simulation {I : State → Prop} {μ : State → Nat} (h : K.Blocks T code blocks)
    (globals : Std.TreeMap Name Int64) (hpre : labels pre = []) (hpost : labels post = [])
    (hcalls : K.Calling T calls E)
    (hE : ∀ {e s e' t}, e.kind = e'.kind → SameWorld K.Z s t → E (.failed e s) (.failed e' t))
    (hI : ∀ {s x s'}, I s → (imageOf globals code).At s x →
      (imageOf globals code).Moves calls s x (.ok s') → I s')
    (hends : ∀ {s t}, K.Holds T s t → I s → t.ip = (pre.length + blocks.flatten.length : Nat) →
      (imageOf globals (pre ++ blocks.flatten ++ post)).Settles calls
        (Apart K.Hidden (imageOf globals (pre ++ blocks.flatten ++ post))) (E (.finished s)) t)
    (hμ : [] ∈ blocks → ∀ s : State, s.ip < code.length → μ s.advance < μ s) :
    Simulation calls (imageOf globals code) (imageOf globals (pre ++ blocks.flatten ++ post))
      (Apart K.Z (imageOf globals code))
      (Apart K.Hidden (imageOf globals (pre ++ blocks.flatten ++ post))) E
      (fun s t => K.Meets T pre.length blocks s t ∧ I s) μ := by
  have hlength : blocks.length = code.length := h.stands.length_eq.symm
  -- Labels lead to the blocks of what they led to.
  have hlabels : ∀ l : Name, (imageOf globals (pre ++ blocks.flatten ++ post)).labels[l]? =
      ((imageOf globals code).labels[l]?).map (pre.length + offset blocks ·) := by
    intro l
    simp only [imageOf, labelTable_getElem?]
    rw [position?_around hpre hpost, position?_flatten (h.stands.imp fun _ _ h => h.keepsLabel),
      Option.map_map]
    rfl
  constructor
  · rintro s t ⟨⟨i, hi, hs, ht, hag⟩, hinv⟩ hend
    obtain rfl : i = blocks.length := by
      have : s.ip = (code.length : Nat) := hend
      omega
    rw [offset_length] at ht
    exact hends hag hinv ht
  · rintro s t x ⟨⟨i, hi, hs, ht, hag⟩, hinv⟩ ⟨j, hj, hx⟩ hok
    obtain rfl : i = j := by omega
    have hx' : code[i]? = some x := by simpa [imageOf] using hx
    have hmem : x ∈ code := mem_of_getElem? hx'
    have hlt : i < code.length := (List.getElem?_eq_some_iff.mp hx').1
    obtain ⟨block, hblock, hstands⟩ := getElem?_of_forall₂ h.stands hx'
    cases hstands with
    | dropped text =>
      -- The code takes a step alone, and the measure goes down.
      refine .inl ⟨s.advance, fun o => .rfl, ⟨⟨i + 1, by omega, ?_, ?_, hag.advance_left⟩, ?_⟩, ?_⟩
      · rw [State.ip_advance, hs]
        rfl
      · rw [ht, offset_succ hblock]
        rfl
      · exact hI hinv ⟨i, hs, hx⟩ rfl
      · exact hμ (mem_of_getElem? hblock) s (by omega)
    | @block U _ _ hU hstands =>
      right
      have hsuits : K.Suits U T T (imageOf globals code)
          (imageOf globals (pre ++ blocks.flatten ++ post)) s.advance x := by
        refine ⟨h.read x hmem, h.write x hmem, fun n hn => ?_, ⟨hok.words, hok.stack⟩,
          fun r hr => ⟨fun hUr => (hU r hUr).1 hr, fun _ => hr⟩⟩
        have hnone : (imageOf globals code).labels[n]? = none := by
          rw [imageOf, labelTable_getElem?, position?_eq_none]
          exact h.symbols x hmem n hn
        simp only [Image.constValue, hlabels, hnone]
        rfl
      have hadvances : (imageOf globals (pre ++ blocks.flatten ++ post)).Advances calls
          (Apart K.Hidden (imageOf globals (pre ++ blocks.flatten ++ post)))
          (fun o' => ∃ o, (imageOf globals code).Moves calls s x o ∧
            Outcome.Related (K.Meets T pre.length blocks) E o o') t := by
        by_cases hfalls : falls x = true
        · exact advances_falls h.machine hU hE hblock hs ht hag hstands hfalls
            (holds_flatten hblock) hsuits
        · cases x with
          | jump c l =>
            refine advances_jump h.machine hU hE hblock hs ht hag hstands (holds_flatten hblock)
              hlabels fun l j hj => ?_
            rw [imageOf, labelTable_getElem?] at hj
            have := (List.getElem?_eq_some_iff.mp (getElem?_of_position? hj)).1
            omega
          | call a =>
            exact advances_call h.machine hU hE hblock hs ht hag hstands hcalls
              (holds_flatten hblock) hsuits
          | ret => exact absurd hmem h.ret
          | _ => exact absurd rfl hfalls
      refine hadvances.mono (fun _ _ h => h) ?_
      rintro o' ⟨o, ho, hrelated⟩
      refine ⟨o, ho, hrelated.refine (fun hs' _ hmeets => ⟨hmeets, ?_⟩) fun h => h⟩
      exact hI hinv ⟨i, hs, hx⟩ (hs' ▸ ho)

/-- The blocks alone go along with the code. -/
theorem Blocks.simulation_alone {μ : State → Nat} (h : K.Blocks T code blocks)
    (globals : Std.TreeMap Name Int64) (hcalls : K.Calling T calls E)
    (hE : ∀ {e s e' t}, e.kind = e'.kind → SameWorld K.Z s t → E (.failed e s) (.failed e' t))
    (hends : ∀ {s t}, K.Holds T s t → E (.finished s) (.finished t))
    (hμ : [] ∈ blocks → ∀ s : State, s.ip < code.length → μ s.advance < μ s) :
    Simulation calls (imageOf globals code) (imageOf globals blocks.flatten)
      (Apart K.Z (imageOf globals code)) (Apart K.Hidden (imageOf globals blocks.flatten)) E
      (K.Meets T 0 blocks) μ := by
  have sim : Simulation calls (imageOf globals code) (imageOf globals ([] ++ blocks.flatten ++ []))
      (Apart K.Z (imageOf globals code))
      (Apart K.Hidden (imageOf globals ([] ++ blocks.flatten ++ []))) E
      (fun s t => K.Meets T 0 blocks s t ∧ True) μ := by
    refine h.simulation globals rfl rfl hcalls hE (fun _ _ _ => trivial) (fun {s t} hag _ ht => ?_) hμ
    refine .done ?_ (hends hag)
    rw [ht]
    simp [imageOf]
  rw [nil_append, append_nil] at sim
  exact sim.congr (fun _ _ h => h) fun s t => by rw [and_true]

end

end X64Backend.Alloc.Keeping
