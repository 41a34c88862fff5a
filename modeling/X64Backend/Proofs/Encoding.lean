import X64Backend.Proofs.Code.Legibility
import X64Backend.Proofs.Generated

/-! # Instructions that the machine has

An instruction of the machine has at most one operand in memory, immediates and distances
of 32 bits, and factors of one, two, four or eight. Nothing else comes out of generation.
-/

namespace X64Backend

open Asm List

namespace Asm

/-- Whether a register can be an index with a factor. -/
def Mem.isIndex (p : Reg × Int64) : Bool :=
  p.1.isMachine && p.1 != .rsp && [1, 2, 4, 8].contains p.2

/-- Whether a word of memory can be an operand: it stands at a symbol, which is addressed from
the instruction pointer, or at a sum of machine registers and a distance. -/
def Mem.encodable (m : Mem) : Bool :=
  match m.base, m.disp with
  | some .rip, .sym _ => m.index.isNone
  | some .rip, .imm _ => false
  | base, .imm d => base.all Reg.isMachine && m.index.all Mem.isIndex && isImm32 d
  | _, .sym _ => false

namespace Operand

/-- Whether an operand can be a register or a word of memory. -/
def isPlace : Operand → Bool
  | .reg r => r.isMachine
  | .mem m => m.encodable
  | .const _ | .absent => false

/-- Whether an operand is an immediate of 32 bits. -/
def isImmediate : Operand → Bool
  | .const (.imm v) => isImm32 v
  | _ => false

/-- Whether an operand is in memory. -/
def isMem : Operand → Bool
  | .mem _ => true
  | _ => false

/-- Whether an operand can be the one that an instruction reads. -/
def isSource (a : Operand) : Bool := a.isPlace || a.isImmediate

/-- Whether two operands can be those of one instruction that writes or tests the first. -/
def encodablePair (d s : Operand) : Bool := d.isPlace && s.isSource && !(d.isMem && s.isMem)

end Operand

/-- Whether the machine has an instruction. -/
def Instr.encodable : Instr → Bool
  | .movAbs d _ => d.isMachine
  | .mov d s | .cmp d s => d.encodablePair s
  | .arith op d s => op.name?.isSome && d.encodablePair s
  | .lea d m => d.isMachine && m.encodable
  | .set c d => c.name?.isSome && d.byteName != []
  | .jump c _ => c.name?.isSome
  | .call (.const (.sym _)) => true
  | .call a | .push a => a.isSource
  | .imul d s => d.isMachine && s.isPlace
  | .imul3 d s k => d.isMachine && s.isPlace && isImm32 k
  | .idiv a | .neg a => a.isPlace
  | .shl a k => a.isPlace && isImm32 k
  | .ret | .cqo | .popRbp | .label _ | .comment _ => true
  | .absent => false

namespace Shape

/-- A shape whose registers and distances the machine can encode. -/
structure Encodes (S : Shape) : Prop where
  reg {r : Reg} (h : S.reg r) : r.isMachine = true ∧ r ≠ .rsp
  frame {d : Int64} (h : S.frame d) : isImm32 d = true
  symbol {c : Const} (h : S.symbol c) : ∃ n, c = .sym n
  stack {v : Int64} (h : S.stack v) : isImm32 v = true

section

variable {S : Shape} (hS : S.Encodes)

include hS

theorem Word.encodable {m : Mem} (h : S.Word m) : m.encodable = true := by
  cases h with
  | symbol h =>
    obtain ⟨n, rfl⟩ := hS.symbol h
    rfl
  | frame h => simp [Mem.encodable, hS.frame h, Reg.isMachine]
  | @sum base index d hbase hindex hd =>
    have hindexed : index.all Mem.isIndex = true := by
      cases index with
      | none => rfl
      | some p =>
        obtain ⟨hr, hs⟩ := hindex p.1 p.2 rfl
        obtain ⟨hmachine, hrsp⟩ := hS.reg hr
        have hscale : [1, 2, 4, 8].contains p.2 = true := by
          rcases hs with hs | hs | hs | hs <;> (rw [hs]; decide)
        rw [Option.all_some, Mem.isIndex, hmachine, hscale, bne_iff_ne.mpr hrsp]
        rfl
    unfold Mem.encodable
    cases base with
    | none => simp [hd, hindexed]
    | some r =>
      grind [hS.reg, Reg.isMachine]

theorem Place.isPlace {a : Operand} (h : S.Place a) : a.isPlace = true := by
  cases h with
  | reg h => exact (hS.reg h).1
  | mem h => exact h.encodable hS

theorem Value.isSource {a : Operand} (h : S.Value a) : a.isSource = true ∧ a.isMem = false := by
  cases h with
  | imm h => exact ⟨by simp [Operand.isSource, Operand.isImmediate, Operand.imm, h], rfl⟩
  | reg h => exact ⟨by simp [Operand.isSource, Operand.isPlace, (hS.reg h).1], rfl⟩

theorem Source.isSource {a : Operand} (h : S.Source a) : a.isSource = true := by
  cases h with
  | value h => exact (h.isSource hS).1
  | mem h => simp [Operand.isSource, Operand.isPlace, h.encodable hS]

theorem Pair.encodable {d s : Operand} (h : S.Pair d s) : d.encodablePair s = true := by
  have hd := h.place.isPlace hS
  have hs := h.source.isSource hS
  have hapart : (d.isMem && s.isMem) = false := by
    cases h with
    | reg hr hs => rfl
    | mem hm hs => rw [(hs.isSource hS).2, Bool.and_false]
  simp [Operand.encodablePair, hd, hs, hapart]

/-- The machine has every instruction of a shape that it can encode. -/
theorem Allows.encodable {x : Instr} (h : S.Allows x) : x.encodable = true := by
  cases h with
  | movAbs v hd => exact (hS.reg hd).1
  | mov h | cmp h => exact h.encodable hS
  | lea hd hm => simp [Instr.encodable, (hS.reg hd).1, hm.encodable hS]
  | set hc =>
    rw [Instr.encodable, hc]
    rfl
  | jump l hc => exact hc
  | callSymbol _ => rfl
  | @call a h =>
    have hsource := h.isSource hS
    unfold Instr.encodable
    split <;> simp_all
  | @stack op v hop hv =>
    have hpair : (Operand.reg .rsp).encodablePair (.imm v) = true := by
      simp [Operand.encodablePair, Operand.isPlace, Reg.isMachine, Operand.isSource,
        Operand.isImmediate, Operand.imm, hS.stack hv, Operand.isMem]
    rcases hop with rfl | rfl <;> exact hpair
  | arith hop h => simp [Instr.encodable, hop, h.encodable hS]
  | imul hd hs => simp [Instr.encodable, (hS.reg hd).1, hs.isPlace hS]
  | imul3 hd hs hk => simp [Instr.encodable, (hS.reg hd).1, hs.isPlace hS, hk]
  | cqo => rfl
  | idiv h => exact h.isPlace hS
  | neg h => exact h.isPlace hS
  | shl h hk => simp [Instr.encodable, h.isPlace hS, hk]
  | push h => exact h.isSource hS
  | label l => rfl
  | comment text => rfl

end

end Shape

end Asm

namespace Code

theorem ne_nil_of_isWord {n : Name} (h : Token.isWord n = true) : n ≠ [] := by
  rintro rfl
  cases h

theorem Expr.Legible.symbols {e : Expr} (h : e.Legible) :
    ∀ n ∈ Select.symbols e, Token.isWord n = true := by
  induction e with
  | const v | temp t => exact fun n hn => absurd hn not_mem_nil
  | name symbol =>
    intro n hn
    rwa [mem_singleton.mp hn]
  | mem a ih => exact ih h
  | binary op l r ihl ihr => exact forall_mem_append.mpr ⟨ihl h.2.1, ihr h.2.2⟩
  | absent => cases h

/-- The symbols of what was read are words. -/
theorem Stmt.Legible.symbols {returns : Bool} {s : Stmt Expr} (h : s.Legible returns) :
    ∀ n ∈ Select.stmtSymbols s, Token.isWord n = true := by
  cases s with
  | move dest src => exact h.2.symbols
  | store a src => exact forall_mem_append.mpr ⟨h.1.symbols, h.2.symbols⟩
  | call f args result =>
    refine forall_mem_append.mpr ⟨h.1.symbols, ?_⟩
    intro n hn
    obtain ⟨a, ha, hn⟩ := mem_flatMap.mp hn
    exact (h.2.1 a ha).symbols n hn
  | branch cond target => exact h.1.symbols
  | ret value =>
    cases value with
    | none => exact fun n hn => absurd hn not_mem_nil
    | some v => exact (h.2 v rfl).symbols
  | jump target | label l => exact fun n hn => absurd hn not_mem_nil
  | absent => cases h

end Code

namespace Generate

open Alloc Select Code

/-- Distances of 32 bits and symbols with names. -/
def narrow : Shape where
  reg _ := False
  frame d := ¬ d < 0 ∧ isImm32 d = true
  symbol c := ∃ n, c = .sym n
  stack v := isImm32 v = true

theorem isImm32_words {n : Nat} (h : n ≤ 2 ^ 27) : isImm32 (8 * Int64.ofNat n) = true := by
  have heq : 8 * Int64.ofNat n = Int64.ofNat (8 * n) := (Int64.ofNat_mul 8 n).symm
  rw [heq]
  exact isImm32_ofNat (by omega)

theorem encodes_finished {slots : Nat} (h : slots ≤ 2 ^ 27) : (finished narrow slots).Encodes where
  reg := by
    rintro r ⟨q, hq, rfl⟩
    refine ⟨rfl, fun hrsp => ?_⟩
    rw [Reg.machine.inj hrsp] at hq
    revert hq
    decide
  frame := by
    rintro d (hd | ⟨k, hpos, hle, rfl⟩)
    · exact hd.2
    · rw [isImm32_iff, toInt_slot (by omega)]
      omega
  symbol h := h
  stack h := h

theorem encodable_frame {bare : Bool} {func : Name} {args slots : Nat}
    {code : List Instr} (hslots : slots < 2 ^ 27) (hcode : ∀ x ∈ code, x.encodable = true) :
    ∀ x ∈ frame bare func args slots code, x.encodable = true := by
  have hwords : frameSlots (calls code) slots ≤ 2 ^ 27 := by
    unfold frameSlots
    split <;> omega
  have hreserve : (Instr.arith .sub (.reg .rsp)
      (.imm (8 * Int64.ofNat (frameSlots (calls code) slots)))).encodable = true :=
    Shape.Allows.encodable (encodes_finished (Nat.le_refl _))
      (.stack (.inr rfl) (isImm32_words hwords))
  exact forall_mem_frame rfl (fun _ => rfl) hreserve (by decide) hcode

section

variable {bare : Bool} {allocator : Allocator} {fn : Func NodeStmt}

theorem suits_narrow (hlegible : (fn.map NodeStmt.plain).Legible)
    (htemps : ∀ t ∈ (fn.map NodeStmt.plain).temps, checkTemp fn.name t = .ok ())
    (hwithin : Within (2 ^ 27) bare allocator fn) : Suits narrow fn where
  args {i} h := by
    have hlt := hwithin.args
    refine ⟨not_neg_argument (by omega), ?_⟩
    rw [argument_eq]
    exact isImm32_ofNat (by omega)
  temps {t} ht := htemps t ht
  symbols {s} hs {n} hn := by
    have hstmt := hlegible.body s.plain (mem_map_of_mem hs)
    refine ⟨n, ?_⟩
    rw [Const.ofName, if_neg]
    simpa using ne_nil_of_isWord (hstmt.symbols n hn)
  calls {s} hs {f args result} h := by
    have hlt := hwithin.calls s hs
    rw [h, passed] at hlt
    refine ⟨rfl, isImm32_words ?_⟩
    dsimp only [stackWords]
    have hsix : MachineReg.arguments.length = 6 := rfl
    omega

theorem encodable_function {code : List Instr} (hlegible : (fn.map NodeStmt.plain).Legible)
    (hwithin : Within (2 ^ 27) bare allocator fn)
    (h : function bare allocator fn = .ok code) : ∀ x ∈ code, x.encodable = true := by
  obtain ⟨htemps, hcode⟩ := function_eq_ok.mp h
  obtain ⟨result, hresult, rfl⟩ := functionCode_eq_ok.mp hcode
  have hslots := hwithin.slots hresult
  have hshape := (suits_narrow hlegible htemps hwithin).unframed (fun _ h => h.1) hresult (by omega)
  exact encodable_frame hslots fun x hx =>
    (hshape x hx).encodable (encodes_finished (Nat.le_of_lt hslots))

end

/-- The machine has every instruction of a program that is generated for a text, with either
allocator, if frames have fewer than `2 ^ 27` slots and arguments. -/
theorem encodable_of_generate {config : Config} {allocator : Allocator} {text : Bytes}
    {m : SourceModule} {p : Program} (hread : Module.read text = .ok m)
    (hallocator : Allocator.ofName? config.allocator = some allocator)
    (hgenerate : generate config (numberModule m) = .ok p)
    (hwithin : ∀ fn ∈ (numberModule m).funcs,
      Within (2 ^ 27) config.removeComments allocator fn) :
    ∀ x ∈ p.code, x.encodable = true := by
  obtain ⟨codes, allocator', hallocator', hcodes, rfl⟩ := exists_isMadeOf hgenerate
  rw [hallocator] at hallocator'
  obtain rfl := Option.some.inj hallocator'
  intro x hx
  obtain ⟨code, hcode, hx⟩ := List.mem_flatten.mp hx
  obtain ⟨fn, hfn, hfunction⟩ := exists_mem_of_forall₂ hcodes hcode
  have hlegible := (Module.legible_of_read hread).funcs _ (mem_numberModule hfn)
  exact encodable_function hlegible (hwithin fn hfn) hfunction x hx

/-- A function that scales an element of an array and prints it. -/
def scaling : Bytes :=
  "func f(p, n) int \x7b\nx = mem[p + n * 8]\nmem[p] = x * 3\ncall @_builtin_println(x)\nreturn x\n\x7d\n"

/-- The module of that function. -/
def scalingModule : SourceModule where
  globals := []
  funcs := [{
    name := "f"
    args := ["p", "n"]
    returns := true
    body := [
      .move "x" (.mem (.binary .add (.temp "p") (.binary .mul (.temp "n") (.const 8)))),
      .store (.temp "p") (.binary .mul (.temp "x") (.const 3)),
      .call (.name "_builtin_println") [.temp "x"] none,
      .ret (some (.temp "x"))] }]

theorem scaling_encodable : Module.read scaling = .ok scalingModule ∧
    ∃ p, generate ⟨true, "naive"⟩ (numberModule scalingModule) = .ok p ∧
      p.code.length = 21 ∧ ∀ x ∈ p.code, x.encodable = true := by
  have hread : Module.read scaling = .ok scalingModule := by decide +kernel
  have hlength : (generate ⟨true, "naive"⟩ (numberModule scalingModule)).toOption.map
      (fun p => p.code.length) = some 21 := by decide +kernel
  have hwithin : ∀ fn ∈ (numberModule scalingModule).funcs,
      (unframed true .stack fn).toOption.map (fun result => result.slots) = some 4 ∧
      fn.args.length < 2 ^ 27 ∧ ∀ s ∈ fn.body, passed s.plain < 2 ^ 27 := by decide +kernel
  cases hgenerate : generate ⟨true, "naive"⟩ (numberModule scalingModule) with
  | error e =>
    rw [hgenerate] at hlength
    cases hlength
  | ok p =>
    rw [hgenerate] at hlength
    refine ⟨hread, p, rfl, Option.some.inj hlength, ?_⟩
    refine encodable_of_generate hread rfl hgenerate fun fn hfn => ?_
    obtain ⟨hslots, hargs, hcalls⟩ := hwithin fn hfn
    refine ⟨fun {result} hresult => ?_, hargs, hcalls⟩
    rw [hresult] at hslots
    have hfour : result.slots = 4 := Option.some.inj hslots
    omega

end Generate

end X64Backend
