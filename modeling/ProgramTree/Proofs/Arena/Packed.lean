import Mathlib.Data.List.Sort
import ProgramTree.Proofs.Arena

/-! # Stores that were only added to

As long as nothing is removed from a store, its values lie in the first slots in
the order in which they were stored, all of the first generation, and the free
slots follow in increasing order. So the identities that are given out count up,
also past the point where the slots are doubled. -/

namespace ProgramTree

set_option autoImplicit false

namespace NodeId

/-- As many identities of the first generation as are asked for, from the given slot on. -/
def consecutive (slot count : Nat) : List NodeId :=
  (List.range' slot count).map fun slot => ⟨slot, 0⟩

@[simp] theorem consecutive_zero (slot : Nat) : consecutive slot 0 = [] := rfl

@[simp] theorem length_consecutive (slot count : Nat) :
    (consecutive slot count).length = count := by
  simp [consecutive]

theorem consecutive_succ (slot count : Nat) :
    consecutive slot (count + 1) = ⟨slot, 0⟩ :: consecutive (slot + 1) count := by
  simp [consecutive, List.range'_succ]

theorem consecutive_append (slot count count' : Nat) :
    consecutive slot count ++ consecutive (slot + count) count' =
      consecutive slot (count + count') := by
  simp [consecutive, ← List.map_append, List.range'_append_1]

theorem mem_consecutive {id : NodeId} {slot count : Nat} :
    id ∈ consecutive slot count ↔ id.generation = 0 ∧ slot ≤ id.slot ∧ id.slot < slot + count := by
  simp only [consecutive, List.mem_map, List.mem_range'_1]
  constructor
  · rintro ⟨_, hbounds, rfl⟩
    exact ⟨rfl, hbounds⟩
  · rintro ⟨hgeneration, hbounds⟩
    exact ⟨id.slot, hbounds, (NodeId.eq_iff _ id).mpr ⟨rfl, hgeneration.symm⟩⟩

theorem consecutive_increasing (slot count : Nat) :
    (consecutive slot count).Pairwise fun id other => id.slot < other.slot :=
  List.pairwise_map.mpr List.pairwise_lt_range'

end NodeId

namespace Arena

variable {α : Type} {a : Arena α} {count : Nat}

/-- The first slots hold the values, of the first generation, and the others are free in increasing
order. -/
structure Packed (a : Arena α) (count : Nat) : Prop where
  count_le : count ≤ a.cells.size
  free_eq : a.free = List.range' count (a.cells.size - count)
  generation_eq : a.generation = 0
  contains_iff : ∀ id, a.contains id = true ↔ id ∈ NodeId.consecutive 0 count

theorem packed_empty : (empty : Arena α).Packed 0 where
  count_le := Nat.zero_le _
  free_eq := rfl
  generation_eq := rfl
  contains_iff := by simp [contains, get?_empty]

namespace Packed

variable (h : a.Packed count)
include h

theorem insert_id (value : α) : (a.insert value).1 = ⟨count, 0⟩ := by
  have hcount := h.count_le
  have hfree := h.free_eq
  cases hgap : a.cells.size - count with
  | zero =>
    rw [hgap] at hfree
    have hsize : a.cells.size = count := by omega
    simp [insert, hfree, h.generation_eq, hsize]
  | succ gap =>
    rw [hgap, List.range'_succ] at hfree
    simp [insert, hfree, h.generation_eq]

theorem insert (sound : a.Sound) (value : α) : (a.insert value).2.Packed (count + 1) := by
  have hcount := h.count_le
  have hfree := h.free_eq
  have hcontains : ∀ id, (a.insert value).2.contains id = true ↔
      id ∈ NodeId.consecutive 0 (count + 1) := by
    intro id
    rw [contains_insert sound, h.insert_id, Bool.or_eq_true, decide_eq_true_iff, h.contains_iff,
      NodeId.mem_consecutive, NodeId.mem_consecutive, NodeId.eq_iff]
    dsimp only
    omega
  have hgeneration := (generation_insert value).trans h.generation_eq
  cases hgap : a.cells.size - count with
  | zero =>
    -- All slots are taken, and as many are added.
    rw [hgap] at hfree
    have hsize : a.cells.size = count := by omega
    refine ⟨?_, ?_, hgeneration, hcontains⟩
    · simp [Arena.insert, hfree, hsize]
    · have hadded : count + 1 + (count - 1) - (count + 1) = count - 1 := by omega
      simp [Arena.insert, hfree, hsize, hadded]
  | succ gap =>
    rw [hgap, List.range'_succ] at hfree
    refine ⟨?_, ?_, hgeneration, hcontains⟩
    · simp only [Arena.insert, hfree, Array.size_setIfInBounds]
      omega
    · have hrest : a.cells.size - (count + 1) = gap := by omega
      simp [Arena.insert, hfree, hrest]

theorem modify (id : NodeId) (f : α → α) : (a.modify id f).Packed count := by
  have hcells : (a.modify id f).cells.size = a.cells.size ∧ (a.modify id f).free = a.free := by
    unfold Arena.modify
    split <;> simp
  refine ⟨hcells.1 ▸ h.count_le, ?_, (generation_modify id f).trans h.generation_eq, ?_⟩
  · rw [hcells.1, hcells.2, h.free_eq]
  · intro other
    rw [contains_modify, h.contains_iff]

/-- The values are numbered through. -/
theorem ids_eq : a.ids = NodeId.consecutive 0 count := by
  have : Std.Antisymm fun id other : NodeId => id.slot < other.slot :=
    ⟨fun _ _ hlt hgt => absurd hlt (Nat.lt_asymm hgt)⟩
  have : Std.Irrefl fun id other : NodeId => id.slot < other.slot := ⟨fun _ => Nat.lt_irrefl _⟩
  refine a.ids_increasing.eq_of_mem_iff (NodeId.consecutive_increasing 0 count) fun id => ?_
  rw [mem_ids_iff, ← Arena.contains_iff, h.contains_iff]

theorem size_eq : a.size = count := by
  rw [size, h.ids_eq, NodeId.length_consecutive]

end Packed

end Arena
end ProgramTree
