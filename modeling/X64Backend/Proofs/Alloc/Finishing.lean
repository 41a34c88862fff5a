import X64Backend.Proofs.Alloc.Coloring
import X64Backend.Proofs.Alloc.Forms
import X64Backend.Proofs.Alloc.Shapes

/-! # The shape of finished code

Finishing puts machine registers in the place of the others and numbers the slots anew. It
works on all code of the shape that the rounds leave, and the code that comes out has the same
shape over machine registers.
-/

namespace X64Backend

namespace Alloc.Finish

open Asm

/-- Putting registers in their places and numbering words anew takes code of one shape to code
of another one. -/
structure Maps (f : Finish) (S T : Shape) : Prop where
  reg {r : Reg} (h : S.reg r) : T.reg (f.reg r)
  rip : f.reg .rip = .rip
  rsp : f.reg .rsp = .rsp
  rbp : f.reg .rbp = .rbp
  rax : f.reg .rax = .rax
  frame {d : Int64} (h : S.frame d) :
    ∃ m, f.mem ⟨some .rbp, none, .imm d⟩ = .ok m ∧ T.Word m
  symbol {c : Const} (h : S.symbol c) : T.symbol c
  stack {v : Int64} (h : S.stack v) : T.stack v
  machine {r : Reg} (h : T.reg r) : r.isMachine = true
  apart : ¬ T.reg .rbp

theorem mem_of_base {f : Finish} {m : Mem} (h : m.base ≠ some .rbp) : f.mem m = .ok m := by
  have hnone : slotNumber? m = none := by
    unfold slotNumber?
    split
    next hbase _ _ => exact absurd hbase h
    next => rfl
  unfold Finish.mem
  rw [hnone]

namespace Maps

variable {f : Finish} {S T : Shape} (hf : f.Maps S T) {a : Operand} {x : Instr}

include hf

theorem word {m : Mem} (h : S.Word m) : ∃ m', f.mem (m.mapRegs f.reg) = .ok m' ∧ T.Word m' := by
  cases h with
  | @symbol c h =>
    refine ⟨⟨some .rip, none, c⟩, ?_, .symbol (hf.symbol h)⟩
    simp only [Mem.mapRegs, Option.map_some, Option.map_none, hf.rip]
    exact mem_of_base nofun
  | frame h =>
    simp only [Mem.mapRegs, Option.map_some, Option.map_none, hf.rbp]
    exact hf.frame h
  | @sum base index d hbase hindex hd =>
    have hbase' : ∀ r, base.map f.reg = some r → T.reg r := by
      grind [Option.map_eq_some_iff, hf.reg]
    have hword : T.Word (Mem.mapRegs f.reg ⟨base, index, .imm d⟩) := by
      refine .sum hbase' ?_ hd
      intro r s hr
      obtain ⟨⟨q, s⟩, hq, heq⟩ := Option.map_eq_some_iff.mp hr
      obtain ⟨rfl, rfl⟩ := Prod.mk.inj heq
      exact ⟨hf.reg (hindex q s hq).1, (hindex q s hq).2⟩
    refine ⟨_, mem_of_base ?_, hword⟩
    exact fun heq => hf.apart (hbase' _ heq)

theorem place (h : S.Place a) : ∃ a', (a.mapRegs f.reg).mapMem f.mem = .ok a' ∧ T.Place a' := by
  cases h with
  | reg h => exact ⟨_, rfl, .reg (hf.reg h)⟩
  | mem h =>
    obtain ⟨m, hm, hword⟩ := hf.word h
    exact ⟨.mem m, by simp only [Operand.mapRegs, Operand.mapMem, hm]; rfl, .mem hword⟩

theorem value (h : S.Value a) : ∃ a', (a.mapRegs f.reg).mapMem f.mem = .ok a' ∧ T.Value a' := by
  cases h with
  | imm h => exact ⟨_, rfl, .imm h⟩
  | reg h => exact ⟨_, rfl, .reg (hf.reg h)⟩

theorem source (h : S.Source a) : ∃ a', (a.mapRegs f.reg).mapMem f.mem = .ok a' ∧ T.Source a' := by
  cases h with
  | value h =>
    obtain ⟨a', ha, h⟩ := hf.value h
    exact ⟨a', ha, .value h⟩
  | mem h =>
    obtain ⟨a', ha, h⟩ := hf.place (.mem h)
    exact ⟨a', ha, h.source⟩

theorem pair {d s : Operand} (h : S.Pair d s) : ∃ d' s', (d.mapRegs f.reg).mapMem f.mem = .ok d' ∧
    (s.mapRegs f.reg).mapMem f.mem = .ok s' ∧ T.Pair d' s' := by
  cases h with
  | reg hr hs =>
    obtain ⟨s', hs', hs⟩ := hf.source hs
    exact ⟨_, s', rfl, hs', .reg (hf.reg hr) hs⟩
  | mem hm hs =>
    obtain ⟨d', hd', hd⟩ := hf.place (.mem hm)
    obtain ⟨s', hs', hs⟩ := hf.value hs
    exact ⟨d', s', hd', hs', hd.pair hs⟩

theorem replaced (h : S.Allows x) : ∃ y, (x.mapRegs f.reg).mapMem f.mem = .ok y ∧ T.Allows y := by
  cases h with
  | movAbs v hd => exact ⟨_, rfl, .movAbs v (hf.reg hd)⟩
  | mov h | cmp h | arith hop h =>
    obtain ⟨d, s, hd, hs, h⟩ := hf.pair h
    refine ⟨_, by simp only [Instr.mapRegs, Instr.mapMem, hd, hs]; rfl, ?_⟩
    constructor <;> assumption
  | lea hd hm =>
    obtain ⟨m, hm, h⟩ := hf.word hm
    exact ⟨.lea _ m, by simp only [Instr.mapRegs, Instr.mapMem, hm]; rfl, .lea (hf.reg hd) h⟩
  | set hc =>
    refine ⟨_, rfl, ?_⟩
    simp only [Instr.mapRegs, hf.rax]
    exact .set hc
  | stack hop hv =>
    refine ⟨_, rfl, ?_⟩
    simp only [hf.rsp]
    exact .stack hop (hf.stack hv)
  | imul hd h | imul3 hd h hk =>
    have hd := hf.reg hd
    obtain ⟨a, ha, h⟩ := hf.place h
    refine ⟨_, by simp only [Instr.mapRegs, Instr.mapMem, ha]; rfl, ?_⟩
    constructor <;> assumption
  | idiv h | neg h | shl h hk =>
    obtain ⟨a, ha, h⟩ := hf.place h
    refine ⟨_, by simp only [Instr.mapRegs, Instr.mapMem, ha]; rfl, ?_⟩
    constructor <;> assumption
  | call h | push h =>
    obtain ⟨a, ha, h⟩ := hf.source h
    refine ⟨_, by simp only [Instr.mapRegs, Instr.mapMem, ha]; rfl, ?_⟩
    constructor
    exact h
  | callSymbol hn => exact ⟨_, rfl, .callSymbol (hf.symbol hn)⟩
  | _ => exact ⟨_, rfl, by constructor <;> assumption⟩

omit hf in
theorem withoutSelfCopy (h : T.Allows x) : T.Allows (withoutSelfCopy x) := by
  unfold Finish.withoutSelfCopy
  split
  next =>
    split
    · exact .comment _
    · exact h
  next => exact h

/-- An instruction of the one shape is finished, and is one of the other then. -/
theorem instr (h : S.Allows x) :
    ∃ y, f.instr x = .ok y ∧ T.Allows y := by
  obtain ⟨y, hy, hallows⟩ := hf.replaced h
  have hfinal := withoutSelfCopy hallows
  refine ⟨Finish.withoutSelfCopy y, ?_, hfinal⟩
  unfold Finish.instr
  rw [hy]
  simp only [bind, Except.bind, hfinal.checkRegisters fun _ => hf.machine]
  rfl

end Maps

end Alloc.Finish

end X64Backend
