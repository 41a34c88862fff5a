import Mathlib.Data.List.Perm.Subperm
import X64Backend.Alloc.Rounds
import X64Backend.Proofs.Alloc.Forms

/-! # Slots are numbered without gaps

Registers that get slots get the next numbers, each another one. When the slots of unused
registers go, the others get numbers up to how many they are.
-/

namespace X64Backend.Alloc

open Asm List

/-- Slots have different numbers from one up to how many they are. -/
structure Dense (slots : Slots) : Prop where
  pos {n : Name} {k : Nat} (h : slots[n]? = some k) : 0 < k
  le {n : Name} {k : Nat} (h : slots[n]? = some k) : k ≤ slots.size
  inj {n n' : Name} {k : Nat} (h : slots[n]? = some k) (h' : slots[n']? = some k) : n = n'

theorem dense_empty : Dense (∅ : Slots) where
  pos h := by simp at h
  le h := by simp at h
  inj h := by simp at h

theorem getElem?_insert_slots {slots : Slots} {n m : Name} {k : Nat} :
    (slots.insert n k)[m]? = if n = m then some k else slots[m]? := by
  simp only [Std.TreeMap.getElem?_insert, Std.LawfulEqCmp.compare_eq_iff_eq]

theorem Dense.insert {slots : Slots} (h : Dense slots) {n : Name} (hn : slots[n]? = none) :
    Dense (slots.insert n (slots.size + 1)) ∧ (slots.insert n (slots.size + 1)).size = slots.size + 1 := by
  have hsize : (slots.insert n (slots.size + 1)).size = slots.size + 1 := by
    rw [Std.TreeMap.size_insert, Std.TreeMap.contains_eq_isSome_getElem?, hn]
    rfl
  refine ⟨⟨?_, ?_, ?_⟩, hsize⟩
  · intro m k hk
    rw [getElem?_insert_slots] at hk
    split at hk
    · cases hk
      exact Nat.succ_pos _
    · exact h.pos hk
  · intro m k hk
    rw [hsize]
    rw [getElem?_insert_slots] at hk
    split at hk
    · cases hk
      exact Nat.le_refl _
    · exact Nat.le_succ_of_le (h.le hk)
  -- The new number is beyond all that were given.
  · intro m m' k hk hk'
    rw [getElem?_insert_slots] at hk hk'
    split at hk
    next heq =>
      cases hk
      split at hk'
      next heq' => exact heq.symm.trans heq'
      next =>
        have hle := h.le hk'
        omega
    next =>
      split at hk'
      next =>
        cases hk'
        have hle := h.le hk
        omega
      next => exact h.inj hk hk'

/-- Registers that get slots: what had one keeps it, and what gets one is among the new. -/
structure Extends (slots : Slots) (rs : List Reg) (slots' new : Slots) : Prop where
  dense : Dense slots'
  size : slots'.size = slots.size + rs.length
  new_iff {n : Name} : new[n]? = none ↔ ∀ r ∈ rs, r.name ≠ n
  of_new {n : Name} {k : Nat} (h : new[n]? = some k) : slots'[n]? = some k
  of_old {n : Name} (h : new[n]? = none) : slots'[n]? = slots[n]?

/-- One register after another gets the next slot, in both tables. -/
theorem foldl_addSlots {rs : List Reg} (hnodup : (rs.map Reg.name).Nodup) (slots new : Slots)
    (h : Dense slots) (hnew : ∀ r ∈ rs, slots[r.name]? = none) :
    ∃ slots' new' : Slots, rs.foldl (fun (all, new) r => (all.insert r.name (all.size + 1),
        new.insert r.name (all.size + 1))) (slots, new) = (slots', new') ∧
      Dense slots' ∧ slots'.size = slots.size + rs.length ∧
      (∀ n, (∀ r ∈ rs, r.name ≠ n) → slots'[n]? = slots[n]? ∧ new'[n]? = new[n]?) ∧
      ∀ r ∈ rs, ∃ k, slots'[r.name]? = some k ∧ new'[r.name]? = some k := by
  -- On the registers still to get a slot, with the tables as they are then.
  induction rs generalizing slots new with
  | nil => exact ⟨slots, new, rfl, h, rfl, fun _ _ => ⟨rfl, rfl⟩, fun _ hr => absurd hr not_mem_nil⟩
  | cons r rs ih =>
    obtain ⟨hr, hnodup⟩ := List.nodup_cons.mp hnodup
    have hother : ∀ q ∈ rs, r.name ≠ q.name := fun q hq heq =>
      hr (heq ▸ mem_map_of_mem hq)
    obtain ⟨hdense, hsize⟩ := h.insert (hnew r mem_cons_self)
    obtain ⟨slots', new', heq, hdense', hsize', hold, hall⟩ :=
      ih hnodup (slots.insert r.name (slots.size + 1)) (new.insert r.name (slots.size + 1)) hdense
        fun q hq => by
          rw [getElem?_insert_slots, if_neg (hother q hq)]
          exact hnew q (mem_cons_of_mem r hq)
    refine ⟨slots', new', heq, hdense', ?_, ?_, ?_⟩
    · rw [hsize', hsize, length_cons]
      omega
    · intro n hn
      obtain ⟨hslots, hnew⟩ := hold n fun q hq => hn q (mem_cons_of_mem r hq)
      have hne := hn r mem_cons_self
      rw [hslots, hnew, getElem?_insert_slots, getElem?_insert_slots, if_neg hne, if_neg hne]
      exact ⟨rfl, rfl⟩
    · intro q hq
      rcases List.mem_cons.mp hq with rfl | hq
      · obtain ⟨hslots, hnew⟩ := hold q.name fun p hp heq => hother p hp heq.symm
        refine ⟨slots.size + 1, ?_, ?_⟩
        · rw [hslots, getElem?_insert_slots, if_pos rfl]
        · rw [hnew, getElem?_insert_slots, if_pos rfl]
      · exact hall q hq

theorem addSlots_extends {slots : Slots} {rs : List Reg} (h : Dense slots)
    (hnodup : (rs.map Reg.name).Nodup) (hnew : ∀ r ∈ rs, slots[r.name]? = none) :
    Extends slots rs (addSlots slots rs).1 (addSlots slots rs).2 := by
  obtain ⟨slots', new, heq, hdense, hsize, hold, hall⟩ := foldl_addSlots hnodup slots ∅ h hnew
  unfold addSlots
  rw [heq]
  have hiff : ∀ {n : Name}, new[n]? = none ↔ ∀ r ∈ rs, r.name ≠ n := by
    grind
  refine ⟨hdense, hsize, hiff, ?_, ?_⟩
  · grind
  · exact fun hn => (hold _ (hiff.mp hn)).1

/-! ## What is left of the slots -/

namespace Finish

variable {f : Finish}

theorem mem_numbers {slots : Slots} {k : Nat} :
    k ∈ slots.toList.map Prod.snd ↔ ∃ n : Name, slots[n]? = some k := by
  simp_all

theorem mem_kept {k : Nat} : k ∈ f.kept ↔ (∃ n : Name, f.slots[n]? = some k) ∧ k ∉ f.dropped := by
  rw [kept, mem_filter, mem_numbers, Bool.not_eq_true', contains_eq_mem,
    decide_eq_false_iff_not]

theorem nodup_numbers {slots : Slots} (h : Dense slots) : (slots.toList.map Prod.snd).Nodup := by
  rw [nodup_iff_pairwise_ne, pairwise_map]
  refine (Std.TreeMap.distinct_keys_toList (t := slots)).imp_of_mem ?_
  rintro ⟨n, k⟩ ⟨m, j⟩ hn hm hne heq
  subst heq
  rw [Std.TreeMap.mem_toList_iff_getElem?_eq_some] at hn hm
  exact hne (Std.LawfulEqCmp.compare_eq_iff_eq.mpr (h.inj hn hm))

/-- All slots but those of unused registers stay, and of these there are few. -/
theorem size_le_kept (h : Dense f.slots) : f.slots.size ≤ f.kept.length + f.unused.length := by
  have hdropped : f.dropped.length ≤ f.unused.length := length_filterMap_le _ _
  have hnodup := nodup_numbers h
  have hlength : (f.slots.toList.map Prod.snd).length = f.slots.size := by
    rw [length_map, Std.TreeMap.length_toList]
  have hsplit := length_eq_length_filter_add (l := f.slots.toList.map Prod.snd)
    fun k => f.dropped.contains k
  have hsub : ((f.slots.toList.map Prod.snd).filter fun k => f.dropped.contains k).length ≤
      f.dropped.length := by
    have hfilter : ((f.slots.toList.map Prod.snd).filter fun k => f.dropped.contains k).Nodup :=
      List.Pairwise.filter _ hnodup
    refine (hfilter.subperm fun k hk => ?_).length_le
    simpa using (List.mem_filter.mp hk).2
  rw [kept]
  omega

theorem length_unusedOf_le (colors : List MachineReg) : (unusedOf colors).length ≤ 5 :=
  length_filter_le _ MachineReg.calleeSaved

/-- A slot that stays is numbered anew, from one up to how many stay. -/
theorem renumber?_of_mem {k : Nat} (h : k ∈ f.kept) :
    ∃ j, f.renumber? k = some j ∧ 0 < j ∧ j ≤ f.kept.length := by
  refine ⟨f.kept.countP fun id : Nat => (id : Int) ≤ (k : Int), ?_, ?_, countP_le_length⟩
  · rw [renumber?, if_pos]
    rw [any_eq_true]
    exact ⟨k, h, by simp⟩
  · rw [countP_pos_iff]
    exact ⟨k, h, by simp⟩

end Finish

end X64Backend.Alloc
