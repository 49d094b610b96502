import ProgramTree.Tree.Edit
import ProgramTree.Proofs.Arena
import Mathlib.Data.List.Perm.Subperm

/-! # What the writes of a tree change

A tree is seen through the payload, the parent and the child list of each
identity, and through which identities are alive. Each write changes one of
these views at one identity. -/

namespace ProgramTree.Tree

set_option autoImplicit false

variable (t : Tree) (id other : NodeId)

theorem contains_iff : t.contains id = true ↔ ∃ node, t.node? id = some node :=
  t.nodes.contains_iff id

theorem mem_nodes_ids_iff : id ∈ t.nodes.ids ↔ t.contains id = true := by
  rw [Arena.mem_ids_iff, ← Arena.contains_iff]
  rfl

theorem contains_eq_false_iff : t.contains id = false ↔ t.node? id = none := by
  simp [contains, Arena.contains, node?]

variable {t id} in
theorem node?_eq_some (h : t.contains id = true) :
    ∃ payload, t.payload? id = some payload ∧
      t.node? id = some ⟨payload, t.parent? id, t.children id⟩ := by
  obtain ⟨node, hnode⟩ := (t.contains_iff id).mp h
  refine ⟨node.payload, ?_, ?_⟩
  · simp [payload?, hnode]
  · simp [hnode, parent?, children]

variable {t id} in
theorem contains_of_parent? {parent : NodeId} (h : t.parent? id = some parent) :
    t.contains id = true := by
  obtain ⟨node, hnode, _⟩ := Option.bind_eq_some_iff.mp h
  exact (t.contains_iff id).mpr ⟨node, hnode⟩

variable {t id} in
theorem contains_of_mem_children {child : NodeId} (h : child ∈ t.children id) :
    t.contains id = true := by
  cases hnode : t.node? id with
  | none => simp [children, hnode] at h
  | some node => exact (t.contains_iff id).mpr ⟨node, hnode⟩

variable {t id} in
theorem contains_of_kind? {kind : NodeKind} (h : t.kind? id = some kind) :
    t.contains id = true := by
  cases hnode : t.node? id with
  | none => simp [kind?, payload?, hnode] at h
  | some node => exact (t.contains_iff id).mpr ⟨node, hnode⟩

variable {t id} in
theorem exists_kind? (h : t.contains id = true) : ∃ kind, t.kind? id = some kind := by
  obtain ⟨payload, hpayload, _⟩ := node?_eq_some h
  exact ⟨payload.kind, by simp [kind?, hpayload]⟩

theorem views_congr {t t' : Tree} {id : NodeId} (h : t.node? id = t'.node? id) :
    t.contains id = t'.contains id ∧ t.payload? id = t'.payload? id ∧
      t.kind? id = t'.kind? id ∧ t.parent? id = t'.parent? id ∧ t.children id = t'.children id := by
  refine ⟨?_, ?_, ?_, ?_, ?_⟩
  · exact congrArg Option.isSome h
  all_goals simp only [kind?, payload?, parent?, children, h]

section Modify

theorem node?_modifyNode (f : Node → Node) :
    (t.modifyNode id f).node? other = if other = id then (t.node? id).map f else t.node? other :=
  t.nodes.get?_modify id f other

@[simp] theorem root_modifyNode (f : Node → Node) : (t.modifyNode id f).root = t.root := rfl

/-- A view that a write does not touch. -/
theorem view_modifyNode {β : Type} (view : Option Node → β) (f : Node → Node)
    (h : ∀ node, view (some (f node)) = view (some node)) :
    view ((t.modifyNode id f).node? other) = view (t.node? other) := by
  rw [node?_modifyNode]
  split
  · rename_i he
    subst he
    cases t.node? other with
    | none => rfl
    | some node => exact h node
  · rfl

@[simp] theorem contains_modifyNode (f : Node → Node) :
    (t.modifyNode id f).contains other = t.contains other :=
  t.view_modifyNode id other Option.isSome f fun _ => rfl

def mapChildren (f : List NodeId → List NodeId) : Tree :=
  t.modifyNode id fun node => { node with children := f node.children }

def setParent (parent : Option NodeId) : Tree :=
  t.modifyNode id fun node => { node with parent }

def setPayload (payload : Payload) : Tree :=
  t.modifyNode id fun node => { node with payload }

end Modify

section Children

variable (f : List NodeId → List NodeId)

@[simp] theorem root_mapChildren : (t.mapChildren id f).root = t.root := rfl

@[simp] theorem contains_mapChildren :
    (t.mapChildren id f).contains other = t.contains other :=
  t.contains_modifyNode id other _

@[simp] theorem payload?_mapChildren :
    (t.mapChildren id f).payload? other = t.payload? other :=
  t.view_modifyNode id other (Option.map Node.payload) _ fun _ => rfl

@[simp] theorem kind?_mapChildren : (t.mapChildren id f).kind? other = t.kind? other := by
  simp [kind?]

@[simp] theorem parent?_mapChildren :
    (t.mapChildren id f).parent? other = t.parent? other :=
  t.view_modifyNode id other (Option.bind · Node.parent) _ fun _ => rfl

variable {t id} in
theorem children_mapChildren (h : t.contains id = true) :
    (t.mapChildren id f).children other =
      if other = id then f (t.children id) else t.children other := by
  obtain ⟨node, hnode⟩ := (t.contains_iff id).mp h
  simp only [children, mapChildren, node?_modifyNode]
  split <;> simp [hnode]

end Children

section Parent

variable (parent : Option NodeId)

@[simp] theorem root_setParent : (t.setParent id parent).root = t.root := rfl

@[simp] theorem contains_setParent :
    (t.setParent id parent).contains other = t.contains other :=
  t.contains_modifyNode id other _

@[simp] theorem payload?_setParent :
    (t.setParent id parent).payload? other = t.payload? other :=
  t.view_modifyNode id other (Option.map Node.payload) _ fun _ => rfl

@[simp] theorem kind?_setParent : (t.setParent id parent).kind? other = t.kind? other := by
  simp [kind?]

@[simp] theorem children_setParent :
    (t.setParent id parent).children other = t.children other :=
  t.view_modifyNode id other (fun node => (node.map Node.children).getD []) _ fun _ => rfl

variable {t id} in
theorem parent?_setParent (h : t.contains id = true) :
    (t.setParent id parent).parent? other = if other = id then parent else t.parent? other := by
  obtain ⟨node, hnode⟩ := (t.contains_iff id).mp h
  simp only [parent?, setParent, node?_modifyNode]
  split <;> simp [hnode]

end Parent

section Payload

variable (payload : Payload)

@[simp] theorem root_setPayload : (t.setPayload id payload).root = t.root := rfl

@[simp] theorem contains_setPayload :
    (t.setPayload id payload).contains other = t.contains other :=
  t.contains_modifyNode id other _

@[simp] theorem parent?_setPayload :
    (t.setPayload id payload).parent? other = t.parent? other :=
  t.view_modifyNode id other (Option.bind · Node.parent) _ fun _ => rfl

@[simp] theorem children_setPayload :
    (t.setPayload id payload).children other = t.children other :=
  t.view_modifyNode id other (fun node => (node.map Node.children).getD []) _ fun _ => rfl

variable {t id} in
theorem payload?_setPayload (h : t.contains id = true) :
    (t.setPayload id payload).payload? other =
      if other = id then some payload else t.payload? other := by
  obtain ⟨node, hnode⟩ := (t.contains_iff id).mp h
  simp only [payload?, setPayload, node?_modifyNode]
  split <;> simp [hnode]

end Payload

section Create

variable {t} (sound : t.nodes.Sound) (payload : Payload)
include sound

theorem node?_create :
    (t.create payload).2.node? other =
      if other = (t.create payload).1 then some ⟨payload, none, []⟩ else t.node? other :=
  t.nodes.get?_insert sound _ other

theorem node?_create_fresh : t.node? (t.create payload).1 = none :=
  t.nodes.get?_insert_fresh sound _

end Create

section Free

theorem node?_free :
    (t.free id).node? other = if other = id then none else t.node? other :=
  t.nodes.get?_remove id other

@[simp] theorem root_free : (t.free id).root = t.root := rfl

end Free

theorem node?_new (package : Option String) :
    (new package).node? other =
      if other = (new package).root then some ⟨.compilationUnit package, none, []⟩ else none := by
  have h := Arena.get?_insert Arena.empty Arena.sound_empty
    (⟨.compilationUnit package, none, []⟩ : Node) other
  rw [Arena.get?_empty] at h
  exact h

section Size

/-- The number of live nodes bounds the length of every list of different live ones. -/
theorem length_le_size {ids : List NodeId} (hnodup : ids.Nodup)
    (hlive : ∀ id ∈ ids, t.contains id = true) : ids.length ≤ t.size := by
  have hsub : ids ⊆ t.nodes.ids := by
    intro id hid
    exact (t.mem_nodes_ids_iff id).mpr (hlive id hid)
  exact (List.subperm_of_subset hnodup hsub).length_le

theorem length_eq_size {ids : List NodeId} (hnodup : ids.Nodup)
    (hiff : ∀ id, id ∈ ids ↔ t.contains id = true) : ids.length = t.size := by
  have hperm : ids.Perm t.nodes.ids := by
    refine (List.perm_ext_iff_of_nodup hnodup t.nodes.ids_nodup).mpr fun id => ?_
    rw [hiff, mem_nodes_ids_iff]
  exact hperm.length_eq

end Size

end ProgramTree.Tree
