import X64Backend.Proofs.Code.Legibility

/-! # Printing against reading

Every module that a text denotes can be printed, and the printed text denotes the same module
if and only if all its statements are faithful. The others are those in which a negative
constant is called, and those in which a value that begins with a temporary of the name `call`
is moved: the parentheses that kept these apart in the text are not printed.
-/

namespace X64Backend.Code

/-- A text that spells the tokens of a module denotes the module if and only if the module is
faithful. -/
theorem Module.read_eq_ok_iff_of_spells {text : Bytes} {m : SourceModule} (h : m.Legible)
    (hspells : Token.Spells text m.tokens []) : Module.read text = .ok m ↔ m.Faithful := by
  have hview : (Tokens.ofText text).view = (m.tokens, true) := by
    rw [Tokens.view_of_spells hspells]
    exact Prod.ext (List.append_nil _) rfl
  have hfuel : m.tokens.length < (Tokens.ofText text).lexemes.length + 1 := by
    rw [← (Prod.mk.inj hview).1, List.length_map]
    exact Nat.lt_succ_self _
  have hsettles := Reader.settles_declarations h hfuel
  rw [Module.read, Module.ofTokens_eq_ok_iff]
  constructor
  · rintro ⟨final, hread⟩
    by_contra hfaithful
    exact hsettles.misses hfaithful _ hview final hread
  · intro hfaithful
    obtain ⟨final, hread, _⟩ := hsettles.reads hfaithful _ hview
    exact ⟨final, hread⟩

/-- Every module that a text denotes is printed, and the printed text denotes that module again
if and only if the module is faithful. -/
theorem Module.read_print_iff_faithful {text : Bytes} {m : SourceModule}
    (h : Module.read text = .ok m) : ∃ printed, m.print = .ok printed ∧
      (Module.read printed = .ok m ↔ m.Faithful) := by
  have hlegible := Module.legible_of_read h
  obtain ⟨printed, hprint, hspells⟩ := hlegible.print
  exact ⟨printed, hprint, Module.read_eq_ok_iff_of_spells hlegible hspells⟩

/-- A call of a negative constant, in parentheses. -/
def negativeCallee : Bytes := "func f() \x7b\n\tcall (-5)()\n\x7d\n"

/-- The module of that call. -/
def negativeCalleeModule : SourceModule :=
  { globals := [],
    funcs := [{ name := "f", args := [], returns := false, body := [.call (.const (-5)) [] none] }] }

theorem negativeCallee_not_reread : Module.read negativeCallee = .ok negativeCalleeModule ∧
    ∃ printed, negativeCalleeModule.print = .ok printed ∧
      Module.read printed ≠ .ok negativeCalleeModule := by
  have hread : Module.read negativeCallee = .ok negativeCalleeModule := by decide +kernel
  obtain ⟨printed, hprint, hiff⟩ := Module.read_print_iff_faithful hread
  refine ⟨hread, printed, hprint, fun hagain => ?_⟩
  have hfaithful := hiff.mp hagain _ List.mem_cons_self _ List.mem_cons_self (-5) rfl
  exact absurd hfaithful (by decide)

end X64Backend.Code
