import X64Backend.Proofs.Control
import X64Backend.Proofs.Tidy.Labels

/-! # Control flow inside functions

A program is the code of its functions one after another under a single table of labels,
in which of equal labels the last counts. Its jumps stay inside their functions, and its
functions' names lead to their first instructions, exactly if no two functions have a
label in common and no function has its own name as a label in its body. Labels of
different functions may well be equal: only the labels that returns jump to are told
apart by the function's name.
-/

namespace X64Backend.Asm

open List

variable {codes : List (List Instr)} {i : Nat} {code : List Instr} {l : Name}

/-- Where the `i`-th block of code begins when blocks stand one after another. -/
def offset (codes : List (List Instr)) (i : Nat) : Nat := (codes.take i).flatten.length

theorem flatten_eq_of_getElem? (h : codes[i]? = some code) :
    codes.flatten = (codes.take i).flatten ++ (code ++ (codes.drop (i + 1)).flatten) := by
  grind [List.getElem?_eq_some_iff, take_append_drop, flatten_append,
    drop_eq_getElem_cons, flatten_cons]

theorem mem_labels_flatten : l ∈ labels codes.flatten ↔ ∃ code ∈ codes, l ∈ labels code := by
  simp only [mem_labels, mem_flatten]

/-- A label that no later block has is found in the block where it stands. -/
theorem position?_flatten {k : Nat} (h : codes[i]? = some code) (hk : position? code l = some k)
    (hlater : l ∉ labels (codes.drop (i + 1)).flatten) :
    position? codes.flatten l = some (offset codes i + k) := by
  rw [flatten_eq_of_getElem? h, position?_append, position?_append,
    position?_eq_none.mpr hlater, hk]
  rfl

/-- A label that is found in a block stands in none of the later ones. -/
theorem not_mem_labels_of_position?_flatten {k : Nat} (h : codes[i]? = some code)
    (hk : position? codes.flatten l = some k) (hlt : k < offset codes i + code.length) :
    l ∉ labels (codes.drop (i + 1)).flatten := by
  intro hmem
  obtain ⟨j, hj⟩ := exists_position? hmem
  rw [flatten_eq_of_getElem? h, position?_append, position?_append, hj] at hk
  simp only [Option.map_some, Option.some_or, Option.some.injEq] at hk
  unfold offset at hlt
  omega

end X64Backend.Asm

namespace X64Backend

open Asm List

namespace Generate

variable {fn : Code.Func Select.NodeStmt} {code : List Instr}

/-- The program is the code of the module's functions, generated one by one. -/
def IsMadeOf (config : Config) (m : Code.Module Select.NodeStmt) (p : Program)
    (codes : List (List Instr)) : Prop :=
  ∃ allocator, Allocator.ofName? config.allocator = some allocator ∧
    List.Forall₂ (fun f code => function config.removeComments allocator f = .ok code)
      m.funcs codes ∧
    p = { globals := m.globals, funcs := m.funcs.map Code.Func.name, code := codes.flatten }

theorem exists_isMadeOf {config : Config} {m : Code.Module Select.NodeStmt} {p : Program}
    (h : generate config m = .ok p) : ∃ codes, IsMadeOf config m p codes := by
  unfold generate at h
  split at h
  next allocator hallocator =>
    obtain ⟨codes, hcodes, h⟩ := bind_eq_ok.mp h
    exact ⟨codes, allocator, hallocator, mapM_eq_ok.mp hcodes, (pure_eq_ok.mp h).symm⟩
  next => cases h

/-- Code that begins with its function's label. Behind it stand the labels that the code
jumps to and no others, and they are the source's own or the one that returns jump to. -/
structure IsFunctionCode (fn : Code.Func Select.NodeStmt) (code : List Instr) : Prop where
  head : code.head? = some (.label fn.name)
  mem_tail {l : Name} : l ∈ labels code.tail ↔ l ∈ targets code
  source {l : Name} (h : l ∈ labels code.tail) : l = Select.epilogueLabel fn.name ∨
    .label l ∈ fn.body.map Select.NodeStmt.plain

theorem IsFunctionCode.eq_cons (h : IsFunctionCode fn code) :
    code = .label fn.name :: code.tail := by
  have hhead := h.head
  cases code with
  | nil => cases hhead
  | cons x rest =>
    cases Option.some.inj hhead
    rfl

theorem IsFunctionCode.labels_eq (h : IsFunctionCode fn code) :
    labels code = fn.name :: labels code.tail := by
  rw [h.eq_cons]
  rfl

theorem function_spec {bare : Bool} {allocator : Allocator}
    (h : function bare allocator fn = .ok code) : IsFunctionCode fn code := by
  obtain ⟨_, _, h⟩ := bind_eq_ok.mp h
  split at h
  next code' hcode =>
    cases pure_eq_ok.mp h
    obtain ⟨⟨code, supply⟩, hselected, hcode⟩ := bind_eq_ok.mp hcode
    obtain ⟨result, hallocated, hcode⟩ := bind_eq_ok.mp hcode
    obtain ⟨body, hbody, hcode⟩ := bind_eq_ok.mp hcode
    cases pure_eq_ok.mp hcode
    have hskeleton := skeleton_frame bare fn.name fn.args.length result.slots body
    have hlabels : labels (frame bare fn.name fn.args.length result.slots body).tail =
        labels body := by
      have hcons : labels (frame bare fn.name fn.args.length result.slots body) =
          fn.name :: labels body := by
        rw [← labels_skeleton, hskeleton, labels_cons, labels_skeleton]
        rfl
      exact (List.cons.inj hcons).2
    have htargets : targets (frame bare fn.name fn.args.length result.slots body) =
        targets body := by
      rw [← targets_skeleton, hskeleton, targets_cons, targets_skeleton]
      rfl
    obtain ⟨hsettled, hsub⟩ := Tidy.tidy_spec hbody
    refine ⟨rfl, ?_, ?_⟩
    · intro l
      rw [hlabels, htargets]
      exact hsettled l
    intro l hl
    rw [hlabels] at hl
    have hl := hsub l hl
    rw [labels_eq_of_skeleton (skeleton_allocated hallocated)] at hl
    unfold selected at hselected
    rcases hrun : (Select.coverBody fn.name fn.body).run .empty with ⟨body', memo⟩
    rw [hrun] at hselected
    obtain ⟨selected, hcover, hselected⟩ := bind_eq_ok.mp hselected
    obtain ⟨tidied, htidied, hselected⟩ := bind_eq_ok.mp hselected
    cases pure_eq_ok.mp hselected
    have hl := (Tidy.tidy_spec htidied).2 l hl
    rw [labels_append, ← labels_skeleton, skeleton_argumentMoves] at hl
    exact Select.labels_coverBody (by rw [hcover] at hrun; exact hrun) l hl
  next => cases h

end Generate

/-- Every jump of a program leads into the code of its own function, and every name of a
function to the first instruction of its code. -/
def StaysInside (p : Program) (codes : List (List Instr)) : Prop :=
  (∀ i code, codes[i]? = some code → ∀ cond target, .jump cond target ∈ code →
    ∃ k, (Machine.load p).1.labels[target]? = some k ∧
      offset codes i ≤ k ∧ k < offset codes i + code.length) ∧
  ∀ i name, p.funcs[i]? = some name →
    (Machine.load p).1.labels[name]? = some (offset codes i)

/-- No two blocks have a label in common, and none has its first label twice. -/
def Apart (codes : List (List Instr)) : Prop :=
  codes.Pairwise (fun a b => ∀ l ∈ labels a, l ∉ labels b) ∧
  ∀ code ∈ codes, ∀ l ∈ (labels code).head?, l ∉ (labels code).tail

/-- Labels of a module that are told apart by the whole program: the labels of functions
are neither names of functions nor labels that returns jump to, no two functions share a
name, and no two a label. -/
structure LabelsApart (m : Code.Module Select.NodeStmt) : Prop where
  names : (m.funcs.map Code.Func.name).Nodup
  labels : m.funcs.Pairwise fun f g => ∀ l, .label l ∈ f.body.map Select.NodeStmt.plain →
    .label l ∉ g.body.map Select.NodeStmt.plain
  reserved : ∀ f ∈ m.funcs, ∀ g ∈ m.funcs, ∀ l, .label l ∈ f.body.map Select.NodeStmt.plain →
    l ≠ g.name ∧ l ≠ Select.epilogueLabel g.name
  epilogues : ∀ f ∈ m.funcs, ∀ g ∈ m.funcs, f.name ≠ Select.epilogueLabel g.name

section

variable {config : Config} {m : Code.Module Select.NodeStmt} {p : Program}
variable {codes : List (List Instr)} (h : Generate.IsMadeOf config m p codes)
variable {i : Nat} {code : List Instr}

include h

theorem Generate.IsMadeOf.labels_eq : (Machine.load p).1.labels = labelTable codes.flatten := by
  obtain ⟨_, _, _, rfl⟩ := h
  rfl

theorem Generate.IsMadeOf.length_eq : m.funcs.length = codes.length := by
  obtain ⟨_, _, hcodes, _⟩ := h
  exact hcodes.length_eq

/-- Every block is the code of the function at its place. -/
theorem Generate.IsMadeOf.isFunctionCode {f : Code.Func Select.NodeStmt} (hf : m.funcs[i]? = some f)
    (hcode : codes[i]? = some code) : IsFunctionCode f code := by
  obtain ⟨allocator, _, hcodes, _⟩ := h
  obtain ⟨hi, rfl⟩ := List.getElem?_eq_some_iff.mp hf
  obtain ⟨hi', rfl⟩ := List.getElem?_eq_some_iff.mp hcode
  exact function_spec (hcodes.get hi hi')

theorem Generate.IsMadeOf.exists_func (hcode : codes[i]? = some code) :
    ∃ f, m.funcs[i]? = some f ∧ IsFunctionCode f code := by
  have hi : i < m.funcs.length := by
    rw [h.length_eq]
    exact (List.getElem?_eq_some_iff.mp hcode).1
  have hf := getElem?_eq_getElem hi
  exact ⟨_, hf, h.isFunctionCode hf hcode⟩

theorem Generate.IsMadeOf.getElem?_funcs {name : Name} :
    p.funcs[i]? = some name ↔ ∃ f, m.funcs[i]? = some f ∧ f.name = name := by
  obtain ⟨_, _, _, rfl⟩ := h
  simp

/-- A label of a block that leads into the block stands in no later one. -/
theorem StaysInside.not_mem_later (hstays : StaysInside p codes) (hcode : codes[i]? = some code)
    {l : Name} (hl : l ∈ labels code) : l ∉ labels (codes.drop (i + 1)).flatten := by
  obtain ⟨f, hf, hspec⟩ := h.exists_func hcode
  rw [hspec.labels_eq, mem_cons] at hl
  rcases hl with rfl | hl
  · have hname := hstays.2 i f.name (h.getElem?_funcs.mpr ⟨f, hf, rfl⟩)
    rw [h.labels_eq, labelTable_getElem?] at hname
    apply not_mem_labels_of_position?_flatten hcode hname
    rw [hspec.eq_cons, length_cons]
    omega
  · obtain ⟨cond, hjump⟩ := mem_targets.mp (hspec.mem_tail.mp hl)
    obtain ⟨k, hk, _, hlt⟩ := hstays.1 i code hcode cond l hjump
    rw [h.labels_eq, labelTable_getElem?] at hk
    exact not_mem_labels_of_position?_flatten hcode hk hlt

theorem apart_of_staysInside (hstays : StaysInside p codes) : Apart codes := by
  have hlater : ∀ {i code l}, codes[i]? = some code → l ∈ labels code →
      l ∉ labels (codes.drop (i + 1)).flatten := fun hcode hl =>
    hstays.not_mem_later h hcode hl
  constructor
  · rw [pairwise_iff_getElem]
    intro i j hi hj hij l hl hl'
    apply hlater (getElem?_eq_getElem hi) hl
    rw [mem_labels_flatten]
    refine ⟨codes[j], ?_, hl'⟩
    rw [mem_drop_iff_getElem]
    exact ⟨j - (i + 1), by omega, by congr 1; omega⟩
  · intro code hmem l hhead htail
    obtain ⟨i, hi, rfl⟩ := mem_iff_getElem.mp hmem
    have hcode := getElem?_eq_getElem hi
    obtain ⟨f, hf, hspec⟩ := h.exists_func hcode
    rw [hspec.labels_eq] at hhead htail
    cases hhead
    obtain ⟨k, hk⟩ := exists_position? htail
    have hin : position? codes[i] f.name = some (k + 1) := by
      rw [hspec.eq_cons, position?, hk]
    have hmem : f.name ∈ labels codes[i] := by
      rw [hspec.labels_eq]
      exact mem_cons_self
    have hflat := position?_flatten hcode hin (hlater hcode hmem)
    have hname := hstays.2 i f.name (h.getElem?_funcs.mpr ⟨f, hf, rfl⟩)
    rw [h.labels_eq, labelTable_getElem?, hflat, Option.some.injEq] at hname
    omega

theorem staysInside_of_apart (hapart : Apart codes) : StaysInside p codes := by
  -- Of equal labels the last one counts, and no later function has this one.
  have hlater : ∀ {i code l}, codes[i]? = some code → l ∈ labels code →
      l ∉ labels (codes.drop (i + 1)).flatten := by
    intro i code l hcode hl hmem
    obtain ⟨b, hb, hlb⟩ := mem_labels_flatten.mp hmem
    obtain ⟨j, hj, rfl⟩ := mem_drop_iff_getElem.mp hb
    obtain ⟨hi, rfl⟩ := List.getElem?_eq_some_iff.mp hcode
    exact pairwise_iff_getElem.mp hapart.1 i _ hi (by omega) (by omega) l hl hlb
  constructor
  · intro i code hcode cond target hjump
    obtain ⟨f, hf, hspec⟩ := h.exists_func hcode
    have htail := hspec.mem_tail.mpr (mem_targets.mpr ⟨cond, hjump⟩)
    have hl : target ∈ labels code := by
      rw [hspec.labels_eq]
      exact mem_cons_of_mem _ htail
    obtain ⟨k, hk⟩ := exists_position? hl
    refine ⟨offset codes i + k, ?_, Nat.le_add_right _ _, ?_⟩
    · rw [h.labels_eq, labelTable_getElem?]
      exact position?_flatten hcode hk (hlater hcode hl)
    · have hlt := position?_lt hk
      omega
  · intro i name hname
    obtain ⟨f, hf, rfl⟩ := h.getElem?_funcs.mp hname
    have hi : i < codes.length := by
      rw [← h.length_eq]
      exact (List.getElem?_eq_some_iff.mp hf).1
    have hcode := getElem?_eq_getElem hi
    have hspec := h.isFunctionCode hf hcode
    have hnot : f.name ∉ labels codes[i].tail := by
      have honce := hapart.2 codes[i] (getElem_mem hi) f.name
      rw [hspec.labels_eq] at honce
      exact honce rfl
    have hin : position? codes[i] f.name = some 0 := by
      rw [hspec.eq_cons, position?, position?_eq_none.mpr hnot]
      exact if_pos rfl
    have hl : f.name ∈ labels codes[i] := by
      rw [hspec.labels_eq]
      exact mem_cons_self
    rw [h.labels_eq, labelTable_getElem?]
    exact position?_flatten hcode hin (hlater hcode hl)

/-- Where a label of a block comes from. -/
theorem Generate.IsMadeOf.source {f : Code.Func Select.NodeStmt} (hf : m.funcs[i]? = some f)
    (hcode : codes[i]? = some code) {l : Name} (hl : l ∈ labels code) :
    l = f.name ∨ l = Select.epilogueLabel f.name ∨
      .label l ∈ f.body.map Select.NodeStmt.plain := by
  have hspec := h.isFunctionCode hf hcode
  rw [hspec.labels_eq, mem_cons] at hl
  rcases hl with rfl | hl
  · exact .inl rfl
  · exact .inr (hspec.source hl)

/-- Labels that a module tells apart stay apart in its program. -/
theorem apart_of_labelsApart (hm : LabelsApart m) : Apart codes := by
  have hepilogue : ∀ {a b}, Select.epilogueLabel a = Select.epilogueLabel b → a = b := by
    intro a b hab
    exact append_cancel_left hab
  constructor
  · rw [pairwise_iff_getElem]
    intro i j hi hj hij l hl hl'
    obtain ⟨f, hf, -⟩ := h.exists_func (getElem?_eq_getElem hi)
    obtain ⟨g, hg, -⟩ := h.exists_func (getElem?_eq_getElem hj)
    obtain ⟨hi', hfi⟩ := List.getElem?_eq_some_iff.mp hf
    obtain ⟨hj', hgj⟩ := List.getElem?_eq_some_iff.mp hg
    have hfm : f ∈ m.funcs := mem_of_getElem? hf
    have hgm : g ∈ m.funcs := mem_of_getElem? hg
    have hname : f.name ≠ g.name := by
      intro heq
      have hnodup := pairwise_iff_getElem.mp hm.names i j (by simpa) (by simpa) hij
      simp only [getElem_map, hfi, hgj] at hnodup
      exact hnodup heq
    have hsource := pairwise_iff_getElem.mp hm.labels i j hi' hj' hij
    rw [hfi, hgj] at hsource
    -- A label is a function's name, where its returns go, or one of the source.
    rcases h.source hf (getElem?_eq_getElem hi) hl with rfl | rfl | hsf
    · rcases h.source hg (getElem?_eq_getElem hj) hl' with heq | heq | hsg
      · exact hname heq
      · exact hm.epilogues f hfm g hgm heq
      · exact (hm.reserved g hgm f hfm _ hsg).1 rfl
    · rcases h.source hg (getElem?_eq_getElem hj) hl' with heq | heq | hsg
      · exact hm.epilogues g hgm f hfm heq.symm
      · exact hname (hepilogue heq)
      · exact (hm.reserved g hgm f hfm _ hsg).2 rfl
    · rcases h.source hg (getElem?_eq_getElem hj) hl' with rfl | rfl | hsg
      · exact (hm.reserved f hfm g hgm _ hsf).1 rfl
      · exact (hm.reserved f hfm g hgm _ hsf).2 rfl
      · exact hsource l hsf hsg
  · intro code hmem l hhead htail
    obtain ⟨i, hi, rfl⟩ := mem_iff_getElem.mp hmem
    obtain ⟨f, hf, hspec⟩ := h.exists_func (getElem?_eq_getElem hi)
    have hfm : f ∈ m.funcs := mem_of_getElem? hf
    rw [hspec.labels_eq] at hhead htail
    cases hhead
    rcases hspec.source htail with heq | hsource
    · exact hm.epilogues f hfm f hfm heq
    · exact (hm.reserved f hfm f hfm _ hsource).1 rfl

end

/-- The jumps of a generated program stay inside their functions, and the names of its
functions lead to their code, exactly if the functions' codes have no label in common and
none repeats its function's name. Labels that the module tells apart are enough for it. -/
theorem staysInside_iff_apart {config : Config} {m : Code.Module Select.NodeStmt} {p : Program}
    (h : generate config m = .ok p) :
    ∃ codes, Generate.IsMadeOf config m p codes ∧ (StaysInside p codes ↔ Apart codes) ∧
      (LabelsApart m → StaysInside p codes) := by
  obtain ⟨codes, hcodes⟩ := Generate.exists_isMadeOf h
  refine ⟨codes, hcodes, ⟨apart_of_staysInside hcodes, staysInside_of_apart hcodes⟩, ?_⟩
  intro hm
  exact staysInside_of_apart hcodes (apart_of_labelsApart hcodes hm)

/-- A function whose body has one label and goes to it. -/
def branching (name : Name) (a b : Int64) : Code.Func Select.NodeStmt where
  name := name
  args := ["n"]
  returns := true
  body := Select.NodeStmt.numberAll 0
    [.branch (.temp "n") "L", .ret (some (.const a)), .label "L", .ret (some (.const b))]

/-- Two functions that use the same name for a label. -/
def sharedLabel : Code.Module Select.NodeStmt where
  globals := []
  funcs := [branching "f" 1 2, branching "g" 3 4]

/-- Functions with different names, each of which has its labels once and goes to no
others, are not enough for jumps to stay inside. -/
theorem sharedLabel_not_staysInside :
    (sharedLabel.funcs.map Code.Func.name).Nodup ∧
    (∀ f ∈ sharedLabel.funcs,
      (f.body.flatMap (Select.stmtLabels ∘ Select.NodeStmt.plain)).Nodup ∧
      ∀ l ∈ f.body.flatMap (Select.stmtTargets ∘ Select.NodeStmt.plain),
        l ∈ f.body.flatMap (Select.stmtLabels ∘ Select.NodeStmt.plain)) ∧
    ∃ p codes, generate ⟨true, []⟩ sharedLabel = .ok p ∧
      Generate.IsMadeOf ⟨true, []⟩ sharedLabel p codes ∧ ¬ StaysInside p codes := by
  refine ⟨by decide +kernel, by decide +kernel, ?_⟩
  let code (name : Name) (a b : Int64) : List Instr :=
    [.label name, .cmp (.reg (.machine .rdi)) (.imm 0), .jump .jnz "L", .mov (.reg .rax) (.imm a),
      .jump .jmp (Select.epilogueLabel name), .label "L", .mov (.reg .rax) (.imm b),
      .label (Select.epilogueLabel name), .ret]
  have hf : Generate.function true .coalescing (branching "f" 1 2) = .ok (code "f" 1 2) := by
    decide +kernel
  have hg : Generate.function true .coalescing (branching "g" 3 4) = .ok (code "g" 3 4) := by
    decide +kernel
  have h : generate ⟨true, []⟩ sharedLabel =
      .ok ⟨[], ["f", "g"], [code "f" 1 2, code "g" 3 4].flatten⟩ := by
    show (sharedLabel.funcs.mapM (Generate.function true .coalescing) >>= _) = _
    rw [bind_eq_ok]
    exact ⟨_, mapM_eq_ok.mpr (.cons hf (.cons hg .nil)), rfl⟩
  obtain ⟨codes, hcodes, hiff, -⟩ := staysInside_iff_apart h
  refine ⟨_, codes, h, hcodes, ?_⟩
  rw [hiff]
  intro hapart
  obtain ⟨allocator, hallocator, hforall, -⟩ := hcodes
  cases hallocator
  obtain ⟨c, _, hc, hrest, rfl⟩ := List.forall₂_cons_left_iff.mp hforall
  obtain ⟨d, _, hd, hnil, rfl⟩ := List.forall₂_cons_left_iff.mp hrest
  obtain rfl : code "f" 1 2 = c := Except.ok.inj (hf.symm.trans hc)
  obtain rfl : code "g" 3 4 = d := Except.ok.inj (hg.symm.trans hd)
  have hpair := (List.pairwise_cons.mp hapart.1).1 (code "g" 3 4) List.mem_cons_self
  exact hpair "L" (by decide +kernel) (by decide +kernel)

end X64Backend
