/-! # A store with generations

Values live in numbered slots. Freed slots are used again, the last freed one
first, and a full store doubles its slots. An identity names a slot together
with the number of removals that came before the value was stored, so a value
that takes the slot of a removed one has another identity. -/

namespace ProgramTree

set_option autoImplicit false

structure NodeId where
  slot : Nat
  generation : Nat
  deriving DecidableEq, Repr

/-- The written identity; the first generation is left out. -/
def NodeId.text (id : NodeId) : String :=
  if id.generation = 0 then "n" ++ toString id.slot
  else "n" ++ toString id.slot ++ "g" ++ toString id.generation

/-- An occupied cell holds the generation of its value beside the value. -/
structure Arena (α : Type) where
  cells : Array (Option (Nat × α))
  free : List Nat
  generation : Nat

namespace Arena

variable {α : Type}

/-- Four free slots, taken in increasing order. -/
def empty : Arena α :=
  ⟨Array.replicate 4 none, List.range 4, 0⟩

def get? (a : Arena α) (id : NodeId) : Option α :=
  match a.cells[id.slot]? with
  | some (some (generation, value)) => if generation = id.generation then some value else none
  | _ => none

def contains (a : Arena α) (id : NodeId) : Bool :=
  (a.get? id).isSome

/-- The identities of all values, in increasing order. -/
def ids (a : Arena α) : List NodeId :=
  a.cells.toList.zipIdx.filterMap fun (cell, slot) =>
    cell.map fun (generation, _) => ⟨slot, generation⟩

def size (a : Arena α) : Nat :=
  a.ids.length

/-- The number of slots that hold a value. -/
def occupied (a : Arena α) : Nat :=
  a.cells.toList.countP Option.isSome

/-- Stores a value in the first free slot, or in the first of the slots added to a full
store. -/
def insert (a : Arena α) (value : α) : NodeId × Arena α :=
  match a.free with
  | slot :: rest =>
    (⟨slot, a.generation⟩,
      { a with cells := a.cells.setIfInBounds slot (some (a.generation, value)), free := rest })
  | [] =>
    let count := a.cells.size
    (⟨count, a.generation⟩,
      { a with
        cells := a.cells.push (some (a.generation, value)) ++ Array.replicate (count - 1) none
        free := List.range' (count + 1) (count - 1) })

/-- Changes the value that an identity names. -/
def modify (a : Arena α) (id : NodeId) (f : α → α) : Arena α :=
  match a.get? id with
  | some value => { a with cells := a.cells.setIfInBounds id.slot (some (id.generation, f value)) }
  | none => a

/-- Frees the slot of an identity, if it names a value, and starts a new generation. -/
def remove (a : Arena α) (id : NodeId) : Arena α :=
  if a.contains id then
    { cells := a.cells.setIfInBounds id.slot none
      free := id.slot :: a.free
      generation := a.generation + 1 }
  else a

/-- Each removal leaves fewer occupied slots. -/
theorem occupied_remove_lt {a : Arena α} {id : NodeId} (h : a.contains id = true) :
    (a.remove id).occupied < a.occupied := by
  have hcell : ∃ cell, a.cells.toList[id.slot]? = some (some cell) := by
    simp only [contains, get?] at h
    split at h
    · rename_i cell hcell
      exact ⟨_, by rw [Array.getElem?_toList]; exact hcell⟩
    · cases h
  obtain ⟨cell, hcell⟩ := hcell
  obtain ⟨hlt, hat⟩ := List.getElem?_eq_some_iff.mp hcell
  have hpos : 0 < a.cells.toList.countP Option.isSome :=
    List.countP_pos_iff.mpr ⟨some cell, List.mem_of_getElem? hcell, rfl⟩
  have hcount : (a.remove id).occupied = a.cells.toList.countP Option.isSome - 1 := by
    simp only [remove, if_pos h, occupied, Array.toList_setIfInBounds, List.countP_set hlt, hat]
    rfl
  rw [hcount]
  exact Nat.sub_lt hpos Nat.one_pos

end Arena
end ProgramTree
