import X64Backend.Proofs.Meaning.Mirror

/-! # All tilings of an expression mean the same

Whatever selection did before, each of the ways to cover a node works its value out: the one
that is taken, those that were too expensive, and the forms of addresses.
-/

namespace X64Backend.Machine

open Asm

/-- Straight code that fails does so in as many steps as it has instructions. -/
theorem Fails.steps_eq {img : Image} {code : List Instr} {s : State} {i : Nat}
    (h : Fails img code s) (hcode : img.Holds i code) (hip : s.ip = i) :
    ∃ f, img.steps code.length s = .error f := by
  induction h generalizing i with
  | @here x code s e hexec =>
    obtain ⟨f, hf⟩ := Image.step_error hcode.head hip hexec
    exact ⟨f, by rw [List.length_cons, Image.steps, hf]; rfl⟩
  | @there x code s s' hx hexec _ ih =>
    have hip' : s'.ip = (i + 1 : Nat) := by
      rw [ip_of_exec hx hexec, State.ip_advance, hip]
      omega
    obtain ⟨f, hf⟩ := ih hcode.tail hip'
    refine ⟨f, ?_⟩
    rw [List.length_cons, Image.steps, Image.step_ok hcode.head hip hexec]
    exact hf

end X64Backend.Machine

namespace X64Backend.Select

open Asm Code Machine

/-- The ways to cover a binary operation. -/
inductive Way
  | generic
  | commutative
  | compare
  | lea
  | imul3
  | shl
  deriving DecidableEq

/-- The tile that a way gives to a node, if it is one for the node. -/
def Way.tile (expr : Node → Selection (Tile Reg)) (n : Node) (op : Op) (l r : Node) :
    Way → Selection (Option (Tile Reg))
  | .generic => tileGeneric expr n op l r
  | .commutative => tileCommutative expr n op l r
  | .compare => tileCompare expr n op l r
  | .lea => tileLea expr n
  | .imul3 => tileImul3 expr n op l r
  | .shl => tileShl expr n op l r

/-- Work of selection for the places that numbers stand for. -/
inductive Task (num : Numbering) (func : Name) : {α : Type} → Selection α → Prop
  | expr {n : Node} (hn : n.Follows num) : Task num func (cover n)
  | address {n : Node} (hn : n.Follows num) : Task num func (coverAddress? n)
  | way {id d : Nat} {op : Op} {l r : Node} (w : Way) (hn : (Node.binary id op l r).Follows num)
      (hd : (Node.binary id op l r).height ≤ d + 1) :
      Task num func (w.tile (coverWithin d) (.binary id op l r) op l r)
  | stmt {s : NodeStmt} (hs : s.Follows num) : Task num func (coverStmt func s)
  | body {body : List NodeStmt} (hbody : ∀ s ∈ body, s.Follows num) :
      Task num func (coverBody func body)

/-- Memos that are left when work was done, task by task. -/
inductive Selected (num : Numbering) (func : Name) : Memo → Prop
  | empty : Selected num func .empty
  | task {α : Type} {work : Selection α} {memo memo' : Memo} {a : α} (h : Selected num func memo)
      (hwork : Task num func work) (hrun : work.run.run memo = (.ok a, memo')) :
      Selected num func memo'

/-- Wherever code stands in a program, it fails if an expression is worth nothing. Otherwise it
runs to its end and what is read then is the value of the expression. On the way no registers
change but those issued up to a number and the two that code works in. -/
def WorksOut (img : Image) (issued : Nat) (e : Expr) (code : List Instr)
    (read : State → Except Trap Int64) : Prop :=
  ∀ (i : Nat) (s : State), img.Holds i code → s.ip = i →
    match (plainSetting img).value s e with
    | none => ∃ f, img.steps code.length s = .error f
    | some v => ∃ s', img.steps code.length s = .ok s' ∧ read s' = .ok v ∧
        s'.memory = s.memory ∧ s'.heap = s.heap ∧ s'.output = s.output ∧
        ∀ r, r ≠ .rax → r ≠ .rdx → (∀ k < issued, r ≠ .issued k) → s'.get r = s.get r

section

variable {num : Numbering} {P : Owner → Expr → Tile Reg → Prop} {func : Name} {own : Owner}
  {memo memo' : Memo} {ok : Prop}

/-- Work that must not stop does not. -/
theorem Ensures.exists_run {α : Type} {work : Selection α} {Q : Owner → α → Prop}
    (h : Ensures num P func True own work Q) (hmemo : memo.Fits num P func own) :
    ∃ a memo', work.run.run memo = (.ok a, memo') ∧ ∃ own', memo'.Fits num P func own' ∧
      Q own' a := by
  have hend := h memo hmemo
  rcases hrun : work.run.run memo with ⟨d | a, memo'⟩
  · rw [hrun] at hend
    exact absurd trivial hend
  · grind

theorem Way.tile_ensures (rules : Rules P) (shares : num.Shares P) {id d : Nat} {op : Op}
    {l r : Node} (w : Way) (h : (Node.binary id op l r).Ready num ok (d + 1)) :
    Ensures num P func ok own (w.tile (coverWithin d) (.binary id op l r) op l r)
      fun own' o => ∀ t ∈ o, P own' (.binary op l.expr r.expr) t := by
  have hexpr : ∀ {own : Owner} {n : Node}, n.Ready num ok d →
      Ensures num P func ok own (coverWithin d n) fun own' t => P own' n.expr t :=
    coverWithin_ensures rules shares
  cases w with
  | generic => exact (tileGeneric_ensures rules hexpr h).imp fun _ _ ho => ho.1
  | commutative => exact tileCommutative_ensures rules hexpr h
  | compare => exact (tileCompare_ensures rules hexpr h).imp fun _ _ ho => ho.1
  | lea => exact tileLea_ensures rules hexpr h
  | imul3 => exact tileImul3_ensures rules hexpr h
  | shl => exact tileShl_ensures rules hexpr h

theorem coverAddress?_ensures (rules : Rules P) (shares : num.Shares P) {n : Node}
    (h : n.Ready num ok n.height) :
    Ensures num P func ok own (coverAddress? n)
      fun own' o => ∀ m ∈ o, IsAddress P own' n.expr m :=
  address?_ensures rules (coverWithin_ensures rules shares) h.succ

/-- Work leaves a memo that fits the rules, whatever they are. -/
theorem Selected.fits (h : Selected num func memo) (rules : Rules P) (shares : num.Shares P) :
    ∃ own, memo.Fits num P func own := by
  induction h with
  | empty => exact ⟨_, Memo.fits_empty num P func⟩
  | @task α work memo memo' a _ hwork hrun ih =>
    obtain ⟨own, hfits⟩ := ih
    have hensures : ∃ Q, Ensures num P func False own work Q := by
      cases hwork with
      | expr hn => exact ⟨_, coverWithin_ensures rules shares ⟨hn, Nat.le_refl _, nofun⟩⟩
      | address hn => exact ⟨_, coverAddress?_ensures rules shares ⟨hn, Nat.le_refl _, nofun⟩⟩
      | way w hn hd => exact ⟨_, w.tile_ensures rules shares ⟨hn, hd, nofun⟩⟩
      | stmt hs => exact ⟨_, coverStmt_ensures rules shares hs nofun⟩
      | body hbody => exact ⟨_, coverBody_ensures rules shares hbody nofun⟩
    obtain ⟨Q, hensures⟩ := hensures
    have hend := hensures memo hfits
    rw [hrun] at hend
    obtain ⟨own', _, hfits', _⟩ := hend
    exact ⟨own', hfits'⟩

/-- Code that computes an expression works it out, if what is read behind it is there. -/
theorem Setting.Computes.worksOut {img : Image} {e : Expr} {code : List Instr}
    {read : State → Except Trap Int64}
    (h : (plainSetting img).Computes own e code fun s => (read s).toOption)
    (hread : ∀ s, ∃ v, read s = .ok v) (hissued : ∀ k f, own k = some f → k < memo.supply.issued) :
    WorksOut img memo.supply.issued e code read := by
  intro i s hcode hip
  rcases h.cases s with ⟨s', hseq, hkeeps, hvalue⟩ | ⟨hnone, hfails⟩
  · obtain ⟨v, hv⟩ := hread s'
    rw [← hvalue, hv]
    refine ⟨s', hseq.steps_eq hcode hip, hv, hkeeps.memory, hkeeps.heap, hkeeps.output, ?_⟩
    intro r hrax hrdx hissue
    rcases hkeeps.regs r with heq | heq | heq | ⟨k, f, heq, hk, _⟩
    · exact heq
    · exact absurd heq hrax
    · exact absurd heq hrdx
    · exact absurd heq (hissue k (hissued k f hk))
  · rw [hnone]
    exact (hfails trivial).steps_eq hcode hip

/-- Tiles that are right in every program. -/
def IsTileOf (own : Owner) (e : Expr) (t : Tile Reg) : Prop :=
  ∀ img, (plainSetting img).IsTile own e t

theorem isTileOf_rules : Rules IsTileOf := .all fun img => (plainSetting img).rules

theorem IsTileOf.worksOut {e : Expr} {t : Tile Reg} (h : IsTileOf own e t) (he : TempNamed e)
    (hissued : ∀ k f, own k = some f → k < memo.supply.issued) (img : Image) :
    WorksOut img memo.supply.issued e t.code fun s => .ok (s.get t.result) :=
  Setting.Computes.worksOut (h img he).2 (fun _ => ⟨_, rfl⟩) hissued

theorem IsAddress.worksOut {e : Expr} {m : Tile Mem} (h : IsAddress IsTileOf own e m)
    (he : TempNamed e) (hissued : ∀ k f, own k = some f → k < memo.supply.issued) {img : Image}
    (hnames : ∀ n ∈ symbols e, ∃ a, img.constValue (.sym n) = .ok a) :
    WorksOut img memo.supply.issued e m.code fun s => img.address s m.result := by
  refine ((plainSetting img).address_computes (h.mono fun ht => ht img) he).worksOut ?_ hissued
  intro s
  cases h with
  | symbol n hcode =>
    obtain ⟨a, ha⟩ := hnames n List.mem_cons_self
    refine ⟨a, toOption_eq_some.mp ?_⟩
    rw [(plainSetting img).address_atSymbol he s s]
    exact toOption_eq_some.mpr ha
  | sum hsum hbase hindex =>
    rw [address_eq]
    exact ⟨_, rfl⟩

end

/-- All tilings of an expression mean the same. Whatever was selected before, the tile of a node
and the tile that each way gives to it, if any, leave the value of the expression in a register,
and the memory operand for it, if any, has that value as its address. All of them fail where the
expression is worth nothing, and there only. -/
theorem tilings_workOut {num : Numbering} {func : Name} {memo : Memo} (hunique : num.Unique)
    (hmemo : Selected num func memo) {n : Node} (hfollows : n.Follows num)
    (hvalid : n.expr.Valid) (hnamed : TempNamed n.expr) :
    (∃ t memo', (cover n).run.run memo = (.ok t, memo') ∧ ∀ img,
      WorksOut img memo'.supply.issued n.expr t.code fun s => .ok (s.get t.result)) ∧
    (∀ id op l r, n = .binary id op l r → ∀ d, n.height ≤ d + 1 → ∀ w : Way, ∃ o memo',
      (w.tile (coverWithin d) n op l r).run.run memo = (.ok o, memo') ∧ ∀ t ∈ o, ∀ img,
        WorksOut img memo'.supply.issued n.expr t.code fun s => .ok (s.get t.result)) ∧
    ∃ o memo', (coverAddress? n).run.run memo = (.ok o, memo') ∧ ∀ m ∈ o, ∀ img,
      (∀ k ∈ symbols n.expr, ∃ a, img.constValue (.sym k) = .ok a) →
        WorksOut img memo'.supply.issued n.expr m.code fun s => img.address s m.result := by
  have shares := hunique.shares IsTileOf
  obtain ⟨own, hfits⟩ := hmemo.fits isTileOf_rules shares
  refine ⟨?_, ?_, ?_⟩
  · obtain ⟨t, memo', hrun, own', hfits', ht⟩ := (coverWithin_ensures isTileOf_rules shares
      ⟨hfollows, Nat.le_refl _, fun _ => hvalid⟩).exists_run hfits
    exact ⟨t, memo', hrun, IsTileOf.worksOut ht hnamed hfits'.issued⟩
  · rintro id op l r rfl d hd w
    obtain ⟨o, memo', hrun, own', hfits', ho⟩ := (w.tile_ensures isTileOf_rules shares
      ⟨hfollows, hd, fun _ => hvalid⟩).exists_run hfits
    exact ⟨o, memo', hrun, fun t ht => (ho t ht).worksOut hnamed hfits'.issued⟩
  · obtain ⟨o, memo', hrun, own', hfits', ho⟩ := (coverAddress?_ensures isTileOf_rules shares
      ⟨hfollows, Nat.le_refl _, fun _ => hvalid⟩).exists_run hfits
    exact ⟨o, memo', hrun, fun m hm img hnames => (ho m hm).worksOut hnamed hfits'.issued hnames⟩

/-- Four times an index. -/
def product : Node := .binary 3 .mul (.temp 1 "i") (.const 2 4)

/-- A word of an array, with the product as a node of its own. -/
def indexed : Node := .mem 5 (.binary 4 .add (.temp 0 "p") product)

/-- The word is worked out after the product was selected on its own. -/
theorem indexed_workOut : ∃ t₀ memo, (cover product).run.run .empty = (.ok t₀, memo) ∧
    ∃ t memo', (cover indexed).run.run memo = (.ok t, memo') ∧ ∀ img,
      WorksOut img memo'.supply.issued indexed.expr t.code fun s => .ok (s.get t.result) := by
  let exprs : List Expr := [.temp "p", .temp "i", .const 4, product.expr,
    .binary .add (.temp "p") product.expr, indexed.expr]
  let num : Numbering := ⟨fun id e => exprs[id]? = some e, fun _ _ => False⟩
  have hunique : num.Unique :=
    ⟨fun h h' => Option.some.inj (h.symm.trans h'), fun h => h.elim⟩
  have hname : TempName "p" ∧ TempName "i" :=
    ⟨⟨by decide, by decide, by decide⟩, by decide, by decide, by decide⟩
  have hproduct : product.Follows num := ⟨rfl, rfl, rfl⟩
  have hempty : Selected num "f" .empty := .empty
  obtain ⟨⟨t₀, memo, hrun, _⟩, _⟩ := tilings_workOut hunique hempty hproduct
    ⟨fun _ => nofun, trivial, trivial⟩ ⟨hname.2, trivial⟩
  obtain ⟨hindexed, _⟩ := tilings_workOut hunique (.task hempty (.expr hproduct) hrun)
    (n := indexed) ⟨rfl, rfl, rfl, hproduct⟩
    ⟨fun _ => nofun, trivial, fun _ => nofun, trivial, trivial⟩ ⟨hname.1, hname.2, trivial⟩
  exact ⟨t₀, memo, hrun, hindexed⟩

/-- The symbol without a name is zero in code, where it is the address of a global in an
expression. -/
theorem nameless_missed :
    let code := ((((cover (.name 0 [])).run.run .empty).1.toOption).map Tile.code).getD []
    let (img, s) := load { globals := [⟨[], "a"⟩], funcs := [], code }
    code = [.lea (.issued 0) (.atSymbol [])] ∧
      (plainSetting img).value s (.name []) = some dataStart ∧
      (img.steps 1 s).toOption.map (·.get (.issued 0)) = some 0 := by
  decide +kernel

end X64Backend.Select
