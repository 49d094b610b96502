import ProgramTree.Arena
import Mathlib.Data.List.Nodup

/-! # Stores that lose nothing

A store is sound when its free slots are distinct and hold nothing. Soundness is
kept by every operation, and in a sound store each operation changes what one
identity names and nothing else. Storing a value gives an identity that named
nothing before.

Which identities were given out earlier is not followed here. -/

namespace ProgramTree

set_option autoImplicit false

theorem NodeId.eq_iff (id other : NodeId) :
    id = other ↔ id.slot = other.slot ∧ id.generation = other.generation := by
  cases id
  cases other
  simp

namespace Arena

variable {α : Type}

structure Sound (a : Arena α) : Prop where
  free_nodup : a.free.Nodup
  free_empty : ∀ slot ∈ a.free, a.cells[slot]? = some none

theorem get?_eq_some_iff (a : Arena α) (id : NodeId) (value : α) :
    a.get? id = some value ↔ a.cells[id.slot]? = some (some (id.generation, value)) := by
  unfold get?
  constructor
  · intro h
    split at h
    · rename_i generation stored hcell
      split at h
      · rename_i hgeneration
        cases h
        rw [hcell, hgeneration]
      · cases h
    · cases h
  · intro h
    simp [h]

theorem get?_eq_none_iff (a : Arena α) (id : NodeId) :
    a.get? id = none ↔ ∀ value, a.cells[id.slot]? ≠ some (some (id.generation, value)) := by
  rw [Option.eq_none_iff_forall_ne_some]
  exact forall_congr' fun value => not_congr (a.get?_eq_some_iff id value)

/-- Under the slot of an occupied cell only its own generation names the value. -/
theorem get?_of_cell {a : Arena α} {id : NodeId} {generation : Nat} {value : α}
    (h : a.cells[id.slot]? = some (some (generation, value))) :
    a.get? id = if generation = id.generation then some value else none := by
  simp [get?, h]

theorem get?_of_vacant {a : Arena α} {id : NodeId} (h : a.cells[id.slot]? = some none) :
    a.get? id = none := by
  simp [get?, h]

theorem get?_congr {a b : Arena α} {id : NodeId}
    (h : ∀ cell, a.cells[id.slot]? = some (some cell) ↔ b.cells[id.slot]? = some (some cell)) :
    a.get? id = b.get? id := by
  apply Option.ext
  intro value
  rw [get?_eq_some_iff, get?_eq_some_iff, h]

theorem contains_iff (a : Arena α) (id : NodeId) :
    a.contains id = true ↔ ∃ value, a.get? id = some value :=
  Option.isSome_iff_exists

section Identities

theorem mem_ids_iff (a : Arena α) (id : NodeId) :
    id ∈ a.ids ↔ ∃ value, a.get? id = some value := by
  simp only [ids, List.mem_filterMap, Prod.exists, List.mem_zipIdx_iff_getElem?,
    Array.getElem?_toList, get?_eq_some_iff]
  constructor
  · rintro ⟨cell, slot, hcell, hid⟩
    obtain ⟨⟨generation, value⟩, rfl, rfl⟩ := Option.map_eq_some_iff.mp hid
    exact ⟨value, hcell⟩
  · rintro ⟨value, hcell⟩
    exact ⟨some (id.generation, value), id.slot, hcell, rfl⟩

theorem ids_increasing (a : Arena α) :
    a.ids.Pairwise fun id other => id.slot < other.slot := by
  have hslots : (a.cells.toList.zipIdx.map Prod.snd).Pairwise (· < ·) := by
    rw [List.zipIdx_map_snd]
    exact List.pairwise_lt_range'
  apply List.pairwise_filterMap.mpr
  apply (List.pairwise_map.mp hslots).imp
  rintro ⟨cell, slot⟩ ⟨cell', slot'⟩ hlt id hid id' hid'
  obtain ⟨_, _, rfl⟩ := Option.map_eq_some_iff.mp hid
  obtain ⟨_, _, rfl⟩ := Option.map_eq_some_iff.mp hid'
  exact hlt

theorem ids_nodup (a : Arena α) : a.ids.Nodup := by
  apply a.ids_increasing.imp
  rintro id _ hlt rfl
  exact Nat.lt_irrefl _ hlt

end Identities

section Empty

theorem sound_empty : (empty : Arena α).Sound where
  free_nodup := List.nodup_range
  free_empty := by
    intro slot hslot
    have : slot < 4 := List.mem_range.mp hslot
    simp [empty, this]

theorem get?_empty (id : NodeId) : (empty : Arena α).get? id = none := by
  rw [get?_eq_none_iff]
  intro value h
  obtain ⟨_, hcell⟩ := Array.getElem?_eq_some_iff.mp h
  simp [empty] at hcell

end Empty

section Insert

/-- Every slot but the one that is taken holds what it held before, or is new and holds nothing. -/
theorem cells_insert (a : Arena α) (h : a.Sound) (value : α) (slot : Nat) :
    (a.insert value).2.cells[slot]? =
      if slot = (a.insert value).1.slot then some (some (a.generation, value))
      else if slot < a.cells.size then a.cells[slot]?
      else if slot < (a.insert value).2.cells.size then some none else none := by
  unfold insert
  split
  · rename_i taken rest hfree
    have hempty := h.free_empty taken (by simp [hfree])
    obtain ⟨hlt, _⟩ := Array.getElem?_eq_some_iff.mp hempty
    simp only [Array.getElem?_setIfInBounds, Array.size_setIfInBounds]
    by_cases hs : taken = slot
    · subst slot
      simp [hlt]
    · rw [if_neg hs, if_neg (Ne.symm hs)]
      split
      · rfl
      · exact Array.getElem?_eq_none (by omega)
  · simp only [Array.getElem?_append, Array.size_push, Array.getElem?_push,
      Array.getElem?_replicate, Array.size_append, Array.size_replicate]
    grind

theorem insert_generation (a : Arena α) (value : α) :
    (a.insert value).1.generation = a.generation := by
  unfold insert
  split <;> rfl

theorem insert_slot_vacant (a : Arena α) (h : a.Sound) (value : α) (cell : Nat × α) :
    a.cells[(a.insert value).1.slot]? ≠ some (some cell) := by
  unfold insert
  split
  · rename_i taken rest hfree
    simp [h.free_empty taken (by simp [hfree])]
  · simp

/-- The identity of a new value named nothing before. -/
theorem get?_insert_fresh (a : Arena α) (h : a.Sound) (value : α) :
    a.get? (a.insert value).1 = none :=
  (a.get?_eq_none_iff _).mpr fun _ => a.insert_slot_vacant h value _

theorem get?_insert (a : Arena α) (h : a.Sound) (value : α) (id : NodeId) :
    (a.insert value).2.get? id = if id = (a.insert value).1 then some value else a.get? id := by
  by_cases hslot : id.slot = (a.insert value).1.slot
  · have hold : a.get? id = none := by
      rw [get?_eq_none_iff, hslot]
      exact fun _ => a.insert_slot_vacant h value _
    have hcell := a.cells_insert h value id.slot
    rw [if_pos hslot] at hcell
    rw [get?_of_cell hcell, hold]
    simp only [NodeId.eq_iff, hslot, insert_generation, true_and, eq_comm]
  · have hne : id ≠ (a.insert value).1 := fun he => hslot (congrArg NodeId.slot he)
    rw [if_neg hne]
    apply get?_congr
    intro cell
    rw [cells_insert a h, if_neg hslot]
    split
    · rfl
    · rename_i hlt
      rw [Array.getElem?_eq_none (by omega)]
      split <;> simp

theorem contains_insert {a : Arena α} (sound : a.Sound) (value : α) (id : NodeId) :
    (a.insert value).2.contains id = (decide (id = (a.insert value).1) || a.contains id) := by
  rw [contains, a.get?_insert sound]
  by_cases hid : id = (a.insert value).1 <;> simp [hid, contains]

theorem generation_insert {a : Arena α} (value : α) :
    (a.insert value).2.generation = a.generation := by
  unfold insert
  split <;> rfl

theorem sound_insert (a : Arena α) (h : a.Sound) (value : α) : (a.insert value).2.Sound := by
  cases hfree : a.free with
  | cons taken rest =>
    have hnodup := h.free_nodup
    rw [hfree] at hnodup
    obtain ⟨hnotin, hrest⟩ := List.nodup_cons.mp hnodup
    constructor
    · simpa [insert, hfree] using hrest
    · intro slot hslot
      have hmem : slot ∈ rest := by simpa [insert, hfree] using hslot
      have hold := h.free_empty slot (by simp [hfree, hmem])
      have hne : taken ≠ slot := by
        rintro rfl
        exact hnotin hmem
      simpa [insert, hfree, Array.getElem?_setIfInBounds, hne] using hold
  | nil =>
    constructor
    · simpa [insert, hfree] using List.nodup_range'
    · intro slot hslot
      have hrange : a.cells.size + 1 ≤ slot ∧ slot < a.cells.size + 1 + (a.cells.size - 1) := by
        simpa [insert, hfree, List.mem_range'_1] using hslot
      simp only [insert, hfree, Array.getElem?_append, Array.size_push,
        Array.getElem?_replicate]
      rw [if_neg (by omega), if_pos (by omega)]

end Insert

section Modify

theorem get?_modify (a : Arena α) (id : NodeId) (f : α → α) (other : NodeId) :
    (a.modify id f).get? other = if other = id then (a.get? id).map f else a.get? other := by
  cases hget : a.get? id with
  | none =>
    simp only [modify, hget, Option.map_none]
    split
    · rename_i he
      rw [he, hget]
    · rfl
  | some value =>
    have hcell := (a.get?_eq_some_iff id value).mp hget
    obtain ⟨hlt, _⟩ := Array.getElem?_eq_some_iff.mp hcell
    simp only [modify, hget, Option.map_some]
    by_cases hslot : id.slot = other.slot
    · rw [hslot] at hcell hlt
      rw [get?_of_cell hcell, hslot, get?_of_cell (Array.getElem?_setIfInBounds_self_of_lt hlt)]
      by_cases hg : id.generation = other.generation
      · simp [NodeId.eq_iff, hslot, hg]
      · simp [NodeId.eq_iff, hg, Ne.symm hg]
    · have hne : other ≠ id := fun he => hslot (congrArg NodeId.slot he).symm
      rw [if_neg hne]
      apply get?_congr
      intro cell
      rw [Array.getElem?_setIfInBounds_ne hslot]

theorem contains_modify {a : Arena α} (other : NodeId) (f : α → α) (id : NodeId) :
    (a.modify other f).contains id = a.contains id := by
  rw [contains, a.get?_modify other]
  by_cases hid : id = other <;> simp [hid, contains]

theorem generation_modify {a : Arena α} (other : NodeId) (f : α → α) :
    (a.modify other f).generation = a.generation := by
  unfold modify
  split <;> rfl

theorem modify_of_none {a : Arena α} {id : NodeId} (h : a.get? id = none) (f : α → α) :
    a.modify id f = a := by
  simp [modify, h]

theorem modify_of_some {a : Arena α} {id : NodeId} {value : α} (h : a.get? id = some value)
    (f : α → α) : a.modify id f =
      { a with cells := a.cells.setIfInBounds id.slot (some (id.generation, f value)) } := by
  simp [modify, h]

theorem modify_modify (a : Arena α) (id : NodeId) (f g : α → α) :
    (a.modify id f).modify id g = a.modify id (g ∘ f) := by
  have hnew := a.get?_modify id f id
  rw [if_pos rfl] at hnew
  cases hget : a.get? id with
  | none =>
    rw [hget] at hnew
    rw [modify_of_none hnew, modify_of_none hget, modify_of_none hget]
  | some value =>
    rw [hget] at hnew
    rw [modify_of_some hnew, modify_of_some hget, modify_of_some hget]
    simp [Array.setIfInBounds_setIfInBounds]

theorem modify_comm (a : Arena α) {id other : NodeId} (hne : id ≠ other) (f g : α → α) :
    (a.modify id f).modify other g = (a.modify other g).modify id f := by
  have hother := a.get?_modify id f other
  have hid := a.get?_modify other g id
  rw [if_neg (Ne.symm hne)] at hother
  rw [if_neg hne] at hid
  cases hget : a.get? id with
  | none => rw [modify_of_none hget, modify_of_none (hid.trans hget)]
  | some value =>
    cases hget' : a.get? other with
    | none => rw [modify_of_none hget', modify_of_none (hother.trans hget')]
    | some value' =>
      have hcell := (a.get?_eq_some_iff id value).mp hget
      have hslot : id.slot ≠ other.slot := by
        intro hs
        rw [hs] at hcell
        rw [get?_of_cell hcell] at hget'
        apply hne
        rw [NodeId.eq_iff]
        refine ⟨hs, ?_⟩
        by_contra hg
        rw [if_neg hg] at hget'
        cases hget'
      rw [modify_of_some (hother.trans hget'), modify_of_some (hid.trans hget),
        modify_of_some hget, modify_of_some hget']
      simp only [Array.setIfInBounds_comm _ _ hslot]

/-- Only what a change does to the value that is there matters. -/
theorem modify_congr (a : Arena α) (id : NodeId) (f g : α → α)
    (h : ∀ value, a.get? id = some value → f value = g value) : a.modify id f = a.modify id g := by
  cases hget : a.get? id with
  | none => rw [modify_of_none hget, modify_of_none hget]
  | some value => rw [modify_of_some hget, modify_of_some hget, h value hget]

theorem modify_self (a : Arena α) (id : NodeId) (f : α → α)
    (h : ∀ value, a.get? id = some value → f value = value) : a.modify id f = a := by
  cases hget : a.get? id with
  | none => exact modify_of_none hget f
  | some value =>
    have hcell := (a.get?_eq_some_iff id value).mp hget
    have hcells : a.cells.setIfInBounds id.slot (some (id.generation, value)) = a.cells := by
      apply Array.ext_getElem?
      intro slot
      rw [Array.getElem?_setIfInBounds]
      split
      · rename_i hslot
        subst hslot
        rw [if_pos (Array.getElem?_eq_some_iff.mp hcell).1, hcell]
      · rfl
    rw [modify_of_some hget, h value hget, hcells]

theorem sound_modify (a : Arena α) (h : a.Sound) (id : NodeId) (f : α → α) :
    (a.modify id f).Sound := by
  cases hget : a.get? id with
  | none => simpa only [modify, hget] using h
  | some value =>
    have hcell := (a.get?_eq_some_iff id value).mp hget
    simp only [modify, hget]
    refine ⟨h.free_nodup, fun slot hslot => ?_⟩
    have hne : id.slot ≠ slot := by
      rintro rfl
      rw [h.free_empty _ hslot] at hcell
      cases hcell
    rw [Array.getElem?_setIfInBounds_ne hne]
    exact h.free_empty slot hslot

end Modify

section Remove

theorem get?_remove (a : Arena α) (id other : NodeId) :
    (a.remove id).get? other = if other = id then none else a.get? other := by
  cases hget : a.get? id with
  | none =>
    simp only [remove, contains, hget, Option.isSome_none, Bool.false_eq_true, if_false]
    split
    · rename_i he
      rw [he, hget]
    · rfl
  | some value =>
    have hcell := (a.get?_eq_some_iff id value).mp hget
    obtain ⟨hlt, _⟩ := Array.getElem?_eq_some_iff.mp hcell
    simp only [remove, contains, hget, Option.isSome_some, if_true]
    by_cases hslot : id.slot = other.slot
    · rw [hslot] at hcell hlt
      rw [hslot, get?_of_vacant (Array.getElem?_setIfInBounds_self_of_lt hlt), get?_of_cell hcell]
      by_cases hg : id.generation = other.generation
      · simp [NodeId.eq_iff, hslot, hg]
      · simp [hg]
    · have hne : other ≠ id := fun he => hslot (congrArg NodeId.slot he).symm
      rw [if_neg hne]
      apply get?_congr
      intro cell
      rw [Array.getElem?_setIfInBounds_ne hslot]

theorem sound_remove (a : Arena α) (h : a.Sound) (id : NodeId) : (a.remove id).Sound := by
  cases hget : a.get? id with
  | none => simpa [remove, contains, hget] using h
  | some value =>
    have hcell := (a.get?_eq_some_iff id value).mp hget
    obtain ⟨hlt, _⟩ := Array.getElem?_eq_some_iff.mp hcell
    simp only [remove, contains, hget, Option.isSome_some, if_true]
    constructor
    · refine List.nodup_cons.mpr ⟨?_, h.free_nodup⟩
      intro hmem
      rw [h.free_empty _ hmem] at hcell
      cases hcell
    · intro slot hslot
      by_cases hs : id.slot = slot
      · subst hs
        exact Array.getElem?_setIfInBounds_self_of_lt hlt
      · rw [Array.getElem?_setIfInBounds_ne hs]
        exact h.free_empty slot ((List.mem_cons.mp hslot).resolve_left (Ne.symm hs))

end Remove

end Arena
end ProgramTree
