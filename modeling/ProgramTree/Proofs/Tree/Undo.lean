import ProgramTree.Proofs.Tree.Runs

/-! # Linking and unlinking at one place

A child that is linked at a place and unlinked from it again leaves the tree as
it was, and so does a child that is unlinked and linked again. What was unlinked
can always be linked again at its old place, since everything that an insertion
asks for held of the tree from before. -/

namespace ProgramTree.Tree

set_option autoImplicit false

section Writes

variable {t : Tree} {id : NodeId}

theorem modifyNode_self {f : Node → Node} (h : ∀ node, t.node? id = some node → f node = node) :
    t.modifyNode id f = t :=
  congrArg (Tree.mk · t.root) (t.nodes.modify_self id f h)

theorem mapChildren_self {f : List NodeId → List NodeId}
    (h : f (t.children id) = t.children id) : t.mapChildren id f = t := by
  refine modifyNode_self fun node hnode => ?_
  have hchildren : t.children id = node.children := by simp [children, hnode]
  rw [hchildren] at h
  rw [h]

theorem setParent_self {parent : Option NodeId} (h : t.parent? id = parent) :
    t.setParent id parent = t := by
  refine modifyNode_self fun node hnode => ?_
  have hparent : node.parent = parent := by simpa [parent?, hnode] using h
  rw [← hparent]

theorem setPayload_self {payload : Payload} (h : t.payload? id = some payload) :
    t.setPayload id payload = t := by
  refine modifyNode_self fun node hnode => ?_
  have hpayload : node.payload = payload := by simpa [payload?, hnode] using h
  rw [← hpayload]

theorem setPayload_setPayload (payload payload' : Payload) :
    (t.setPayload id payload).setPayload id payload' = t.setPayload id payload' :=
  t.modifyNode_modifyNode id _ _

end Writes

section Links

variable {t : Tree} {parent node : NodeId} {index : Nat}

/-- Unlinking takes a linking back. -/
theorem unlink_link (hfree : t.parent? node = none) :
    (t.link parent index node).unlink parent index node = t := by
  have hchildren : ((·.eraseIdx index) ∘ (·.insertIdx index node)) (t.children parent) =
      t.children parent := List.eraseIdx_insertIdx_self node
  rw [unlink, link, setParent_mapChildren, setParent_setParent, mapChildren_mapChildren,
    mapChildren_self hchildren, setParent_self hfree]

theorem getElem?_children_link (can : t.CanInsert parent index node) :
    ((t.link parent index node).children parent)[index]? = some node := by
  rw [children_link _ _ can.parent_live, if_pos rfl, List.getElem?_insertIdx_self,
    if_pos can.index_le]

end Links

namespace WellFormed

variable {t : Tree} (h : t.WellFormed) {parent node : NodeId} {index : Nat}
  (hnode : (t.children parent)[index]? = some node)
include h hnode

/-- Linking takes an unlinking back. -/
theorem relink : (t.unlink parent index node).link parent index node = t := by
  obtain ⟨hlt, hget⟩ := List.getElem?_eq_some_iff.mp hnode
  have hchildren : ((·.insertIdx index node) ∘ (·.eraseIdx index)) (t.children parent) =
      t.children parent := by
    subst hget
    exact List.insertIdx_eraseIdx_getElem hlt
  rw [link_unlink, mapChildren_mapChildren, mapChildren_self hchildren,
    setParent_self (h.parent_iff.mpr (List.mem_of_getElem? hnode))]

/-- What was unlinked can be linked again at its old place. -/
theorem canInsert_unlink : (t.unlink parent index node).CanInsert parent index node := by
  obtain ⟨hparent, hlive⟩ := h.live_of_children_getElem? hnode
  obtain ⟨hlt, _⟩ := List.getElem?_eq_some_iff.mp hnode
  have habove : t.parent? node = some parent := h.parent_iff.mpr (List.mem_of_getElem? hnode)
  have hroot : node ≠ t.root := by
    rintro rfl
    rw [h.root_top] at habove
    cases habove
  refine ⟨by simpa using hparent, by simpa using hlive, by simpa using hroot, ?_, ?_, ?_, ?_⟩
  · rw [parent?_unlink _ _ hlive, if_pos rfl]
  · rw [children_unlink _ _ hparent, if_pos rfl, List.length_eraseIdx, if_pos hlt]
    omega
  · rw [within_unlink_self h hnode]
    exact (h.grounded node).parent_not_within habove
  · intro kind childKind hkind hchild
    rw [kind?_unlink] at hkind hchild
    have hkinds : (t.kindsOf (t.children parent))[index]? = some childKind := by
      have hmap : ((t.kindsOf (t.children parent)).map some)[index]? = some (t.kind? node) := by
        rw [← h.kindsOf_children, List.getElem?_map, hnode, Option.map_some]
      simpa [hchild] using hmap
    obtain ⟨hltKinds, hgetKinds⟩ := List.getElem?_eq_some_iff.mp hkinds
    rw [kindsOf_children_unlink h hnode, if_pos rfl, ← hgetKinds,
      List.insertIdx_eraseIdx_getElem hltKinds]
    exact h.layout hkind

end WellFormed

section Outcomes

open Edit

variable {t : Tree} (h : t.WellFormed)
include h

theorem undo_insertChild {parent node : NodeId} {index : Nat}
    (can : t.CanInsert parent index node) :
    (removeChild parent index).outcome (t.link parent index node) =
      (.ok (.removed parent index node), t) := by
  have hplace := getElem?_children_link can
  have hundo := decides_removeChild (h.insert can) parent index node (Or.inl hplace)
  rw [unlink_link can.free] at hundo
  exact hundo.accept hplace

theorem undo_removeChild {parent node : NodeId} {index : Nat}
    (hnode : (t.children parent)[index]? = some node) :
    (insertChild parent index node).outcome (t.unlink parent index node) =
      (.ok (.inserted parent index node), t) := by
  have hundo := decides_insertChild (h.unlink hnode) parent index node
  rw [h.relink hnode] at hundo
  exact hundo.accept (h.canInsert_unlink hnode)

theorem undo_replaceChild {parent old node : NodeId} {index : Nat}
    (can : t.CanReplace parent index old node) :
    (replaceChild parent index old).outcome ((t.unlink parent index old).link parent index node) =
      (.ok (.replaced parent index node old), t) := by
  have hplace := getElem?_children_link can.insert
  have hundo := decides_replaceChild (h.replace can) parent index node old (Or.inl hplace)
  rw [unlink_link can.insert.free, h.relink can.place] at hundo
  have hold := (h.live_of_children_getElem? can.place).2
  have hne : old ≠ node := by
    rintro rfl
    have habove := h.parent_iff.mpr (List.mem_of_getElem? can.place)
    rw [can.free] at habove
    cases habove
  refine hundo.accept ⟨hplace, ?_, ?_⟩
  · rw [parent?_link _ _ can.insert.node_live, if_neg hne, parent?_unlink _ _ hold, if_pos rfl]
  · rw [unlink_link can.insert.free]
    exact h.canInsert_unlink can.place

theorem undo_moveChild {fromParent toParent node : NodeId} {fromIndex toIndex : Nat}
    (can : t.CanMove fromParent fromIndex toParent toIndex node) :
    (moveChild toParent toIndex fromParent fromIndex).outcome
        ((t.unlink fromParent fromIndex node).link toParent toIndex node) =
      (.ok (.moved node toParent toIndex fromParent fromIndex), t) := by
  have hplace := getElem?_children_link can.insert
  have hundo := decides_moveChild (h.move can) toParent toIndex fromParent fromIndex node
    (Or.inl hplace)
  rw [unlink_link can.insert.free, h.relink can.place] at hundo
  refine hundo.accept ⟨hplace, ?_⟩
  rw [unlink_link can.insert.free]
  exact h.canInsert_unlink can.place

omit h in
theorem undo_update {node : NodeId} {old payload : Payload} (hold : t.payload? node = some old)
    (hkind : t.kind? node = some payload.kind) :
    (update node old).outcome (t.setPayload node payload) =
      (.ok (payload, .updated node), t) := by
  have hlive := contains_of_kind? hkind
  have hnew : (t.setPayload node payload).payload? node = some payload := by
    rw [payload?_setPayload _ _ hlive, if_pos rfl]
  have hundo := decides_update node payload old (Or.inl hnew)
  rw [setPayload_setPayload, setPayload_self hold] at hundo
  refine hundo.accept ?_
  simp only [kind?, hold, Option.map_some, Option.some.injEq] at hkind
  rw [kind?, hnew, Option.map_some, hkind]

end Outcomes

end ProgramTree.Tree
