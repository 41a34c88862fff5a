import X64Backend.Code.Printer
import X64Backend.Code.Reader
import X64Backend.Proofs.Code.Lexing
import X64Backend.Proofs.Outcome

/-! # The tokens of printed code

Code that can have been read is printed, and the printed text is cut into the tokens that
stand for it. Each part of the text either ends with a token of its own, or must be followed
by something that does not go on with its last word.
-/

namespace X64Backend.Code

open Token List

variable {v : Int64} {texts : List Bytes} {α : Type}

/-- The text has these tokens, whatever follows it. -/
def Closed (text : Bytes) (ts : List Token) : Prop := ∀ rest, Spells (text ++ rest) ts rest

/-- The text has these tokens if what follows does not go on with its last word. -/
def Open (text : Bytes) (ts : List Token) : Prop :=
  ∀ rest, Stops rest → Spells (text ++ rest) ts rest

section

variable {p q : Bytes} {ts us : List Token}

theorem Closed.nil : Closed [] [] := Spells.nil

theorem Closed.append (hp : Closed p ts) (hq : Closed q us) : Closed (p ++ q) (ts ++ us) := by
  intro rest
  rw [append_assoc]
  exact (hp _).trans (hq rest)

theorem Closed.append_open (hp : Closed p ts) (hq : Open q us) : Open (p ++ q) (ts ++ us) := by
  intro rest hstops
  rw [append_assoc]
  exact (hp _).trans (hq rest hstops)

/-- Texts whose first byte goes on with no word. -/
def Divides (text : Bytes) : Prop := ∃ b ∈ text.head?, isWordPart b = false

theorem Divides.stops (h : Divides p) (rest : Bytes) : Stops (p ++ rest) := by
  obtain ⟨b, hb, hpart⟩ := h
  intro c hc
  rw [head?_append, hb] at hc
  cases hc
  exact hpart

theorem Open.append (hp : Open p ts) (hdivides : Divides q) (hq : Closed q us) :
    Closed (p ++ q) (ts ++ us) := by
  intro rest
  rw [append_assoc]
  exact (hp _ (hdivides.stops rest)).trans (hq rest)

theorem Closed.open (hp : Closed p ts) : Open p ts := fun rest _ => hp rest

theorem Open.nil : Open [] [] := Closed.nil.open

theorem open_word {w : Bytes} (h : isWord w = true) : Open w [.word w] :=
  fun _ hstops => spells_word h hstops

theorem closed_blank {b : UInt8} (h : isBlank b = true ∨ b = Bytes.ofChar '\n') : Closed [b] [] :=
  fun rest => .blank h (.nil rest)

theorem closed_newline : Closed "\n" [] := closed_blank (.inr rfl)

/-- A word with a blank behind it. -/
theorem closed_word {w : Bytes} (h : isWord w = true) : Closed (w ++ " ") [.word w] := by
  have := (open_word h).append ⟨_, rfl, by decide⟩ (closed_blank (b := Bytes.ofChar ' ') (.inl rfl))
  rwa [append_nil] at this

theorem Open.line (h : Open p ts) : Closed (p ++ "\n") ts := by
  have := h.append ⟨_, rfl, by decide⟩ closed_newline
  rwa [append_nil] at this

theorem closed_tight {m : Mark} (h : isTight m = true) : Closed m.text [.mark m] :=
  spells_tight h

end

/-- Expressions that can have been read: names are words, no temporary has the name of
memory, and no constant is the least word, which has no numeral. -/
def Expr.Legible : Expr → Prop
  | .const value => value ≠ Int64.minValue
  | .name symbol => isWord symbol = true
  | .temp t => isWord t = true ∧ t ≠ "mem"
  | .mem address => address.Legible
  | .binary op left right => op.level?.isSome = true ∧ left.Legible ∧ right.Legible
  | .absent => False

/-- The tokens of an expression as an operand that must bind at least as tightly as `level`. -/
def Expr.tokens (level : Nat) : Expr → List Token
  | .const value => if 0 ≤ value then [.number value] else [.mark (.op .sub), .number (-value)]
  | .name symbol => [.mark .at, .word symbol]
  | .temp t => [.word t]
  | .mem address =>
    [.word "mem", .mark .openBracket] ++ address.tokens 0 ++ [.mark .closeBracket]
  | .binary op left right =>
    match op.level? with
    | none => []
    | some own =>
      let ts := left.tokens own ++ [.mark (.op op)] ++ right.tokens (own + 1)
      if own < level then [.mark .openParen] ++ ts ++ [.mark .closeParen] else ts
  | .absent => []

/-- A word that is not negative is the number of its value. -/
theorem ofNat_toNat_toInt (h : 0 ≤ v) : Int64.ofNat v.toInt.toNat = v := by
  have hint : (0 : Int) ≤ v.toInt := Int64.le_iff_toInt_le.mp h
  rw [← Int64.ofInt_eq_ofNat, Int.toNat_of_nonneg hint, Int64.ofInt_toInt]

theorem ofWord_of_nonneg (h : 0 ≤ v) : Bytes.ofWord v = Bytes.ofNat v.toInt.toNat := by
  have hint : (0 : Int) ≤ v.toInt := Int64.le_iff_toInt_le.mp h
  obtain ⟨n, hn⟩ := Int.eq_ofNat_of_zero_le hint
  rw [Bytes.ofWord, hn]
  rfl

theorem ofWord_of_neg (h : ¬ 0 ≤ v) (hmin : v ≠ Int64.minValue) :
    0 ≤ -v ∧ Bytes.ofWord v = Bytes.ofChar '-' :: Bytes.ofNat (-v).toInt.toNat := by
  have hint : v.toInt < 0 := Int64.lt_iff_toInt_lt.mp (Int64.not_le.mp h)
  have hlow : v.toInt ≠ -2 ^ 63 := fun heq => hmin (Int64.toInt_inj.mp heq)
  have hlo := v.le_toInt
  have hneg : (-v).toInt = -v.toInt := by
    rw [Int64.toInt_neg, Int.bmod_eq_of_le] <;> omega
  refine ⟨Int64.le_iff_toInt_le.mpr ?_, ?_⟩
  · rw [hneg]
    show (0 : Int) ≤ _
    omega
  · obtain ⟨n, hn⟩ := Int.eq_negSucc_of_lt_zero hint
    rw [hneg, Bytes.ofWord, hn]
    rfl

theorem open_number (h : 0 ≤ v) : Open (Bytes.ofNat v.toInt.toNat) [.number v] := by
  intro rest hstops
  have hlt := v.toInt_lt
  have hspells := spells_number (n := v.toInt.toNat) (by omega) hstops
  rwa [ofNat_toNat_toInt h] at hspells

theorem open_const (h : v ≠ Int64.minValue) : Open (Bytes.ofWord v) ((Expr.const v).tokens 0) := by
  rw [Expr.tokens]
  by_cases hnonneg : 0 ≤ v
  · rw [if_pos hnonneg, ofWord_of_nonneg hnonneg]
    exact open_number hnonneg
  · obtain ⟨hneg, htext⟩ := ofWord_of_neg hnonneg h
    rw [if_neg hnonneg, htext]
    exact (closed_tight (m := .op .sub) rfl).append_open (open_number hneg)

/-- A binary operator between blanks. -/
theorem closed_operator {op : Op} (h : op.level?.isSome = true) :
    Closed (" " ++ op.symbol ++ " ") [.mark (.op op)] := by
  intro rest
  have hspaced : isSpaced (.op op) = true := by
    cases op with
    | other s => cases h
    | _ => rfl
  rw [append_assoc, append_assoc]
  exact .blank (.inl rfl) (spells_spaced hspaced rest)

theorem closed_assign : Closed " = " [.mark .assign] := fun rest =>
  .blank (.inl rfl) (spells_spaced (m := .assign) rfl rest)

theorem closed_mem : Closed "mem[" [.word "mem", .mark .openBracket] :=
  (open_word (w := "mem") (by decide)).append ⟨_, rfl, by decide⟩
    (closed_tight (m := .openBracket) rfl)

/-- Texts of operands with operators between them, grouped in any way, and their tokens. -/
inductive Phrase : Bytes → List Token → Prop
  | const {v : Int64} (h : v ≠ Int64.minValue) :
      Phrase (Bytes.ofWord v) ((Expr.const v).tokens 0)
  | name {w : Bytes} (h : isWord w = true) : Phrase ("@" ++ w) [.mark .at, .word w]
  | temp {w : Bytes} (h : isWord w = true) (hmem : w ≠ "mem") : Phrase w [.word w]
  | mem {text : Bytes} {ts : List Token} (h : Phrase text ts) : Phrase ("mem[" ++ text ++ "]")
      ([.word "mem", .mark .openBracket] ++ ts ++ [.mark .closeBracket])
  | paren {text : Bytes} {ts : List Token} (h : Phrase text ts) :
      Phrase ("(" ++ text ++ ")") ([.mark .openParen] ++ ts ++ [.mark .closeParen])
  | operator {op : Op} {p q : Bytes} {ts us : List Token} (hop : op.level?.isSome = true)
      (hl : Phrase p ts) (hr : Phrase q us) :
      Phrase (p ++ (" " ++ op.symbol ++ " ") ++ q) (ts ++ [.mark (.op op)] ++ us)

/-- A phrase is cut into its tokens. -/
theorem Phrase.open {text : Bytes} {ts : List Token} (h : Phrase text ts) : Open text ts := by
  induction h with
  | const h => exact open_const h
  | name h => exact (closed_tight (m := .at) rfl).append_open (open_word h)
  | temp h => exact open_word h
  | mem _ ih =>
    have hclose : Closed "]" [.mark .closeBracket] := closed_tight (m := .closeBracket) rfl
    exact ((closed_mem.append_open ih).append ⟨_, rfl, by decide⟩ hclose).open
  | paren _ ih =>
    have hopening : Closed "(" [.mark .openParen] := closed_tight (m := .openParen) rfl
    have hclosing : Closed ")" [.mark .closeParen] := closed_tight (m := .closeParen) rfl
    exact ((hopening.append_open ih).append ⟨_, rfl, by decide⟩ hclosing).open
  | operator hop _ _ ihl ihr =>
    exact (ihl.append ⟨_, rfl, by decide⟩ (closed_operator hop)).append_open ihr

/-- An expression that can have been read is printed as a phrase of its tokens. -/
theorem Expr.Legible.phrase {e : Expr} (h : e.Legible) (level : Nat) :
    ∃ text, e.print level = .ok text ∧ Phrase text (e.tokens level) := by
  induction e generalizing level with
  | const v => exact ⟨_, rfl, .const h⟩
  | name symbol => exact ⟨_, rfl, .name h⟩
  | temp t => exact ⟨_, rfl, .temp h.1 h.2⟩
  | mem address ih =>
    obtain ⟨a, ha, hphrase⟩ := ih h 0
    exact ⟨"mem[" ++ a ++ "]", by rw [Expr.print, ha]; rfl, .mem hphrase⟩
  | binary op left right ihl ihr =>
    obtain ⟨hop, hl, hr⟩ := h
    obtain ⟨own, hown⟩ := Option.isSome_iff_exists.mp hop
    obtain ⟨l, hprintl, hphrasel⟩ := ihl hl own
    obtain ⟨r, hprintr, hphraser⟩ := ihr hr (own + 1)
    have hinner : Phrase (l ++ " " ++ op.symbol ++ " " ++ r)
        (left.tokens own ++ [.mark (.op op)] ++ right.tokens (own + 1)) := by
      have := Phrase.operator hop hphrasel hphraser
      simpa only [append_assoc] using this
    refine ⟨_, by simp only [Expr.print, hown, hprintl, hprintr]; rfl, ?_⟩
    simp only [Expr.tokens, hown]
    split
    · exact .paren hinner
    · exact hinner
  | absent => cases h

theorem Expr.Legible.print {e : Expr} (h : e.Legible) (level : Nat) :
    ∃ text, e.print level = .ok text ∧ Open text (e.tokens level) := by
  obtain ⟨text, hprint, hphrase⟩ := h.phrase level
  exact ⟨text, hprint, hphrase.open⟩

/-- Lists of tokens with commas between them. -/
def commaTokens (parts : List (List Token)) : List Token :=
  (parts.intersperse [.mark .comma]).flatten

@[simp] theorem commaTokens_nil : commaTokens [] = [] := rfl

@[simp] theorem commaTokens_singleton (part : List Token) : commaTokens [part] = part := by
  simp [commaTokens]

@[simp] theorem commaTokens_cons_cons (part next : List Token) (parts : List (List Token)) :
    commaTokens (part :: next :: parts) = part ++ .mark .comma :: commaTokens (next :: parts) := by
  simp [commaTokens, intersperse_cons_cons]

theorem open_join {parts : List (List Token)} (h : List.Forall₂ Open texts parts) :
    Open (Bytes.join ", " texts) (commaTokens parts) := by
  have hcomma : Closed ", " [.mark .comma] := by
    have := (closed_tight (m := .comma) rfl).append
      (closed_blank (b := Bytes.ofChar ' ') (.inl rfl))
    rwa [append_nil] at this
  induction h with
  | nil => exact .nil
  | @cons text ts texts parts hfirst hrest ih =>
    cases hrest with
    | nil => simpa [Bytes.join] using hfirst
    | cons _ _ =>
      have := (hfirst.append ⟨_, rfl, by decide⟩ hcomma).append_open ih
      simpa [Bytes.join, intersperse_cons_cons] using this

/-- The words that begin a statement of another kind than a move, a label or a call with a result. -/
def statementWords : List Bytes := ["goto", "if", "return", "call", "mem"]

/-- Names that a statement can begin with. -/
def IsTarget (name : Name) : Prop := isWord name = true ∧ name ∉ statementWords

/-- Statements that can have been read in a function that gives a value or none. -/
def Stmt.Legible (returns : Bool) : Stmt Expr → Prop
  | .move dest src => IsTarget dest ∧ src.Legible
  | .store address src => address.Legible ∧ src.Legible
  | .call func args result =>
    func.Legible ∧ (∀ e ∈ args, e.Legible) ∧ ∀ name ∈ result, IsTarget name
  | .jump target => isWord target = true
  | .label l => IsTarget l
  | .branch cond target => cond.Legible ∧ isWord target = true
  | .ret value => value.isSome = returns ∧ ∀ e ∈ value, e.Legible
  | .absent => False

/-- The tokens of a statement. -/
def Stmt.tokens : Stmt Expr → List Token
  | .move dest src => [.word dest, .mark .assign] ++ src.tokens 0
  | .store address src =>
    [.word "mem", .mark .openBracket] ++ address.tokens 0 ++
      [.mark .closeBracket, .mark .assign] ++ src.tokens 0
  | .call func args result =>
    (match result with
      | some name => [.word name, .mark .assign]
      | none => []) ++ [.word "call"] ++ func.tokens levelCount ++ [.mark .openParen] ++
      commaTokens (args.map (Expr.tokens 0)) ++ [.mark .closeParen]
  | .jump target => [.word "goto", .word target]
  | .label l => [.word l, .mark .colon]
  | .branch cond target => [.word "if"] ++ cond.tokens 0 ++ [.word "goto", .word target]
  | .ret none => [.word "return"]
  | .ret (some value) => [.word "return"] ++ value.tokens 0
  | .absent => []

theorem printArgs_of_legible {args : List Expr} (h : ∀ e ∈ args, e.Legible) (position : Nat) :
    ∃ texts, printArgs position args = .ok texts ∧
      List.Forall₂ Open texts (args.map (Expr.tokens 0)) := by
  induction args generalizing position with
  | nil => exact ⟨[], rfl, .nil⟩
  | cons e rest ih =>
    obtain ⟨he, hrest⟩ := forall_mem_cons.mp h
    obtain ⟨text, hprint, hopen⟩ := he.print 0
    obtain ⟨texts, hprints, hopens⟩ := ih hrest (position + 1)
    refine ⟨text :: texts, ?_, .cons hopen hopens⟩
    rw [printArgs, hprint, hprints]
    rfl

/-- A statement that can have been read is printed as its tokens. -/
theorem Stmt.Legible.print {returns : Bool} {s : Stmt Expr} (h : s.Legible returns) :
    ∃ text, s.print "\t" = .ok text ∧ Closed text s.tokens := by
  have htab : Closed "\t" [] := closed_blank (.inl rfl)
  have hclose : Closed ")" [.mark .closeParen] := closed_tight (m := .closeParen) rfl
  cases s with
  | move dest src =>
    obtain ⟨text, hprint, hopen⟩ := h.2.print 0
    refine ⟨_, by rw [Stmt.print, hprint]; rfl, ?_⟩
    have htarget := htab.append_open (open_word h.1.1)
    exact ((htarget.append ⟨_, rfl, by decide⟩ closed_assign).append_open hopen).line
  | store address src =>
    obtain ⟨a, hprinta, hopena⟩ := h.1.print 0
    obtain ⟨text, hprint, hopen⟩ := h.2.print 0
    refine ⟨_, by rw [Stmt.print, hprinta, hprint]; rfl, ?_⟩
    have hassign : Closed "] = " [.mark .closeBracket, .mark .assign] :=
      (closed_tight (m := .closeBracket) rfl).append closed_assign
    have haddress := (htab.append closed_mem).append_open hopena
    exact ((haddress.append ⟨_, rfl, by decide⟩ hassign).append_open hopen).line
  | call func args result =>
    obtain ⟨hfunc, hargs, hresult⟩ := h
    obtain ⟨f, hprintf, hopenf⟩ := hfunc.print levelCount
    obtain ⟨texts, hprints, hopens⟩ := printArgs_of_legible hargs 0
    have hword : Closed "call " [.word "call"] := closed_word (w := "call") (by decide)
    have hparen : Closed "(" [.mark .openParen] := closed_tight (m := .openParen) rfl
    have hcloseLine : Closed ")\n" [.mark .closeParen] := hclose.open.line
    have hcall {into : Bytes} {ts : List Token} (hinto : Closed into ts) :
        Closed ("\t" ++ into ++ "call " ++ f ++ "(" ++ Bytes.join ", " texts ++ ")\n")
          ([] ++ ts ++ [.word "call"] ++ func.tokens levelCount ++ [.mark .openParen] ++
            commaTokens (args.map (Expr.tokens 0)) ++ [.mark .closeParen]) := by
      have hcallee := ((htab.append hinto).append hword).append_open hopenf
      have hargs := (hcallee.append ⟨_, rfl, by decide⟩ hparen).append_open (open_join hopens)
      exact hargs.append ⟨_, rfl, by decide⟩ hcloseLine
    cases result with
    | none => exact ⟨_, by simp only [Stmt.print, hprintf, hprints]; rfl, hcall .nil⟩
    | some name =>
      have htarget := open_word (hresult name rfl).1
      exact ⟨_, by simp only [Stmt.print, hprintf, hprints]; rfl,
        hcall (htarget.append ⟨_, rfl, by decide⟩ closed_assign)⟩
  | jump target =>
    have hword : Closed "goto " [.word "goto"] := closed_word (w := "goto") (by decide)
    exact ⟨_, rfl, ((htab.append hword).append_open (open_word h)).line⟩
  | label l =>
    have hcolon : Closed ":\n" [.mark .colon] := (closed_tight (m := .colon) rfl).open.line
    exact ⟨_, rfl, (open_word h.1).append ⟨_, rfl, by decide⟩ hcolon⟩
  | branch cond target =>
    obtain ⟨text, hprint, hopen⟩ := h.1.print 0
    refine ⟨_, by rw [Stmt.print, hprint]; rfl, ?_⟩
    have hif : Closed "if " [.word "if"] := closed_word (w := "if") (by decide)
    have hgoto : Closed " goto " [.word "goto"] :=
      (closed_blank (.inl rfl)).append (closed_word (w := "goto") (by decide))
    have hcond := (htab.append hif).append_open hopen
    have htarget := (hcond.append ⟨_, rfl, by decide⟩ hgoto).append_open (open_word h.2)
    simpa [Stmt.tokens] using htarget.line
  | ret value =>
    cases value with
    | none =>
      have hreturn : Closed "return\n" [.word "return"] :=
        (open_word (w := "return") (by decide)).line
      exact ⟨_, rfl, htab.append hreturn⟩
    | some value =>
      obtain ⟨text, hprint, hopen⟩ := (h.2 value rfl).print 0
      refine ⟨_, by rw [Stmt.print, hprint]; rfl, ?_⟩
      have hreturn : Closed "return " [.word "return"] := closed_word (w := "return") (by decide)
      exact ((htab.append hreturn).append_open hopen).line
  | absent => cases h

/-- Functions that can have been read. -/
structure Func.Legible (fn : SourceFunc) : Prop where
  name : isWord fn.name = true
  args : ∀ arg ∈ fn.args, isWord arg = true
  body : ∀ s ∈ fn.body, s.Legible fn.returns

/-- The tokens of a function. -/
def Func.tokens (fn : SourceFunc) : List Token :=
  [.word "func", .word fn.name, .mark .openParen] ++ commaTokens (fn.args.map fun arg => [.word arg]) ++
    [.mark .closeParen] ++ (if fn.returns then [.word "int"] else []) ++ [.mark .openBrace] ++
    fn.body.flatMap Stmt.tokens ++ [.mark .closeBrace]

/-- Texts that stand for the tokens of a list's elements stand together for all their tokens. -/
theorem closed_flatten {tokens : α → List Token} {xs : List α}
    (h : List.Forall₂ (fun x text => Closed text (tokens x)) xs texts) :
    Closed texts.flatten (xs.flatMap tokens) := by
  induction h with
  | nil => exact .nil
  | cons hfirst _ ih => exact hfirst.append ih

/-- A printer that succeeds on each element of a list succeeds on the list. -/
theorem exists_mapM {print : α → Printer.Printed} {tokens : α → List Token} {xs : List α}
    (h : ∀ x ∈ xs, ∃ text, print x = .ok text ∧ Closed text (tokens x)) :
    ∃ texts, xs.mapM print = .ok texts ∧
      List.Forall₂ (fun x text => Closed text (tokens x)) xs texts := by
  induction xs with
  | nil => exact ⟨[], rfl, .nil⟩
  | cons x rest ih =>
    obtain ⟨hx, hrest⟩ := forall_mem_cons.mp h
    obtain ⟨text, hprint, hclosed⟩ := hx
    obtain ⟨texts, hprints, hclosedRest⟩ := ih hrest
    refine ⟨text :: texts, ?_, .cons hclosed hclosedRest⟩
    rw [mapM_cons, hprint, hprints]
    rfl

theorem closed_joinLines {tokens : α → List Token} {xs : List α}
    (h : List.Forall₂ (fun x text => Closed text (tokens x)) xs texts) :
    Closed (Bytes.join "\n" texts) (xs.flatMap tokens) := by
  induction h with
  | nil => exact .nil
  | cons hfirst hrest ih =>
    cases hrest with
    | nil => simpa [Bytes.join] using hfirst
    | cons _ _ =>
      have := (hfirst.append closed_newline).append ih
      simpa [Bytes.join, intersperse_cons_cons] using this

/-- A function that can have been read is printed as its tokens. -/
theorem Func.Legible.print {fn : SourceFunc} (h : fn.Legible) :
    ∃ text, fn.print = .ok text ∧ Closed text fn.tokens := by
  obtain ⟨lines, hprint, hlines⟩ := exists_mapM fun s hs => (h.body s hs).print
  refine ⟨_, by rw [Func.print, hprint]; rfl, ?_⟩
  have hfunc : Closed "func " [.word "func"] := closed_word (w := "func") (by decide)
  have hparen : Closed "(" [.mark .openParen] := closed_tight (m := .openParen) rfl
  have hclose : Closed ")" [.mark .closeParen] := closed_tight (m := .closeParen) rfl
  have hargs : Open (Bytes.join ", " fn.args) (commaTokens (fn.args.map fun arg => [.word arg])) := by
    apply open_join
    rw [forall₂_map_right_iff, forall₂_same]
    exact fun arg harg => open_word (h.args arg harg)
  have hspace : Closed " " [] := closed_blank (.inl rfl)
  have htype : Open (if fn.returns then " int" else []) (if fn.returns then [.word "int"] else []) := by
    cases fn.returns with
    | false => exact .nil
    | true => exact hspace.append_open (open_word (w := "int") (by decide))
  have hbrace : Closed " \x7b\n" [.mark .openBrace] :=
    hspace.append (closed_tight (m := .openBrace) rfl).open.line
  have hend : Closed "\x7d\n" [.mark .closeBrace] := (closed_tight (m := .closeBrace) rfl).open.line
  have hname := ((hfunc.append_open (open_word h.name)).append ⟨_, rfl, by decide⟩ hparen)
  have hhead := ((hname.append_open hargs).append ⟨_, rfl, by decide⟩ hclose).append_open htype
  exact ((hhead.append ⟨_, rfl, by decide⟩ hbrace).append (closed_flatten hlines)).append hend

/-- The tokens of a global. -/
def Global.tokens (g : Global) : List Token :=
  [.word "global", .word g.name, .mark .assign, .string g.content]

theorem Global.closed_print {g : Global} (h : isWord g.name = true) : Closed g.print g.tokens := by
  have hword : Closed "global " [.word "global"] := closed_word (w := "global") (by decide)
  have hstring : Closed (Quoted.write g.content) [.string g.content] := spells_string g.content
  have hname := (hword.append_open (open_word h)).append ⟨_, rfl, by decide⟩ closed_assign
  exact ((hname.append hstring).open).line

/-- Modules that can have been read. -/
structure Module.Legible (m : SourceModule) : Prop where
  globals : ∀ g ∈ m.globals, isWord g.name = true
  funcs : ∀ fn ∈ m.funcs, fn.Legible

/-- The tokens of a module. -/
def Module.tokens (m : SourceModule) : List Token :=
  m.globals.flatMap Global.tokens ++ m.funcs.flatMap Func.tokens

/-- A module that can have been read is printed as its tokens. -/
theorem Module.Legible.print {m : SourceModule} (h : m.Legible) :
    ∃ text, m.print = .ok text ∧ Spells text m.tokens [] := by
  have hfunc : ∀ fn ∈ m.funcs, ∃ text, Printer.at (.func fn.name) fn.print = .ok text ∧
      Closed text fn.tokens := by
    intro fn hfn
    obtain ⟨text, hprint, hclosed⟩ := (h.funcs fn hfn).print
    exact ⟨text, by rw [hprint]; rfl, hclosed⟩
  obtain ⟨texts, hprint, htexts⟩ := exists_mapM hfunc
  have hglobals : Closed (m.globals.map Global.print).flatten (m.globals.flatMap Global.tokens) := by
    apply closed_flatten
    rw [forall₂_map_right_iff, forall₂_same]
    exact fun g hg => Global.closed_print (h.globals g hg)
  have hgap : Closed (if m.globals.isEmpty || texts.isEmpty then [] else "\n") [] := by
    split
    · exact .nil
    · exact closed_newline
  refine ⟨_, by rw [Module.print, hprint]; rfl, ?_⟩
  have hall := ((hglobals.append hgap).append (closed_joinLines htexts)) []
  simpa only [Module.tokens, append_nil] using hall

end X64Backend.Code
