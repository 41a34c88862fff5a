import X64Backend.Alloc.Spill
import X64Backend.Asm.Registers
import X64Backend.Proofs.Outcome

/-! # Work with a supply

Spilling code ends with a result: the supply only grows, and a property holds of the result and
the supply that is left. The steps of the work compose.
-/

namespace X64Backend.Alloc.Spilling

open Asm

variable {slots : Slots}

theorem slot?_eq_some {r : Reg} {m : Mem} :
    slot? slots r = some m ↔ ∃ n, slots[r.name]? = some n ∧ m = .slot n := by
  unfold slot?
  cases slots[r.name]? with
  | none => simp
  | some n => simp [eq_comm]

theorem slot?_eq_none {r : Reg} : slot? slots r = none ↔ slots[r.name]? = none := by
  unfold slot?
  cases slots[r.name]? <;> simp

/-- A word of the frame is addressed as it was. -/
theorem address_frame {m : Mem} (hrbp : slots[Reg.rbp.name]? = none) (hbase : m.base = some .rbp)
    (hindex : m.index = none) : address slots m = pure ([], m) := by
  have hreg : readReg slots .rbp = pure ([], .rbp) := by
    unfold readReg
    rw [slot?_eq_none.mpr hrbp]
  have hread : readBase slots (some .rbp) = pure ([], some .rbp) := by
    unfold readBase
    simp only [hreg]
    rfl
  obtain ⟨base, index, disp⟩ := m
  obtain rfl : base = some .rbp := hbase
  obtain rfl : index = none := hindex
  unfold address
  rw [hread]
  rfl

/-- Whether an instruction has somewhere to write, if it writes. -/
def hasTarget : Instr → Bool
  | .mov (.const _) _ | .mov .absent _ | .arith _ (.const _) _ | .arith _ .absent _ => false
  | _ => true

/-- The work has a result, which leaves a supply no smaller and has a property. -/
def Yields (supply : Supply) {α : Type} (work : Spilling α) (Q : Supply → α → Prop) : Prop :=
  ∃ a supply', work.run supply = .ok (a, supply') ∧ supply.issued ≤ supply'.issued ∧ Q supply' a

namespace Yields

variable {supply : Supply} {α β : Type}

theorem pure {a : α} {Q : Supply → α → Prop} (h : Q supply a) : Yields supply (pure a) Q :=
  ⟨a, supply, rfl, Nat.le_refl _, h⟩

theorem bind {work : Spilling α} {next : α → Spilling β} {Q : Supply → α → Prop}
    {R : Supply → β → Prop} (hwork : Yields supply work Q)
    (hnext : ∀ supply' a, supply.issued ≤ supply'.issued → Q supply' a →
      Yields supply' (next a) R) :
    Yields supply (work >>= next) R := by
  obtain ⟨a, supply', hrun, hle, hQ⟩ := hwork
  obtain ⟨b, supply'', hrun', hle', hR⟩ := hnext supply' a hle hQ
  refine ⟨b, supply'', ?_, Nat.le_trans hle hle', hR⟩
  rw [StateT.run_bind, hrun]
  exact hrun'

theorem fresh : Yields supply fresh fun supply' r =>
    r = .issued supply.issued ∧ supply'.issued = supply.issued + 1 :=
  ⟨_, _, rfl, Nat.le_succ _, rfl, rfl⟩

theorem imp {work : Spilling α} {Q R : Supply → α → Prop} (hwork : Yields supply work Q)
    (h : ∀ supply' a, supply.issued ≤ supply'.issued → Q supply' a → R supply' a) :
    Yields supply work R := by
  obtain ⟨a, supply', hrun, hle, hQ⟩ := hwork
  exact ⟨a, supply', hrun, hle, h supply' a hle hQ⟩

end Yields

/-- Work on the instructions of code, one after the other. -/
theorem mapM_yields {supply : Supply} {xs : List Instr}
    {P : Supply → Supply → Instr → List Instr → Prop}
    (hxs : ∀ x ∈ xs, ∀ begun : Supply, supply.issued ≤ begun.issued →
      Yields begun (instr slots x) fun ended block => P begun ended x block) :
    Yields supply (xs.mapM (instr slots)) fun supply' blocks => List.Forall₂ (fun x block =>
      ∃ begun ended : Supply, supply.issued ≤ begun.issued ∧ ended.issued ≤ supply'.issued ∧
        P begun ended x block) xs blocks := by
  induction xs generalizing supply with
  | nil => exact .pure .nil
  | cons x xs ih =>
    obtain ⟨hx, hxs⟩ := List.forall_mem_cons.mp hxs
    rw [List.mapM_cons]
    apply Yields.bind (hx supply (Nat.le_refl _))
    intro ended block hle hP
    apply Yields.bind (ih fun y hy begun hbegun => hxs y hy begun (Nat.le_trans hle hbegun))
    intro last blocks hlast hblocks
    refine .pure (.cons ⟨supply, ended, Nat.le_refl _, hlast, hP⟩ (hblocks.imp ?_))
    rintro y out ⟨begun, ended, hbegun, hout⟩
    exact ⟨begun, ended, Nat.le_trans hle hbegun, hout⟩

/-- Spilled code has what the code for every instruction has, whatever was issued before and
is issued behind it. -/
theorem code_yields (supply : Supply) (slots : Slots) (xs : List Instr) {P : Nat → Instr → Prop}
    (hmono : ∀ {k k' x}, k ≤ k' → P k x → P k' x)
    (hxs : ∀ x ∈ xs, ∀ begun : Supply, supply.issued ≤ begun.issued →
      Yields begun (instr slots x) fun supply' out => ∀ y ∈ out, P supply'.issued y) :
    Yields supply (code slots xs) fun supply' out => ∀ y ∈ out, P supply'.issued y := by
  apply Yields.bind (mapM_yields hxs)
  intro supply' blocks _ hblocks
  refine .pure fun y hy => ?_
  obtain ⟨block, hblock, hy⟩ := List.mem_flatten.mp hy
  obtain ⟨_, _, _, ended, _, hended, hP⟩ := exists_mem_of_forall₂ hblocks hblock
  exact hmono hended (hP y hy)

end X64Backend.Alloc.Spilling
