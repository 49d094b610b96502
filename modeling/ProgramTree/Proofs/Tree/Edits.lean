import Mathlib.Data.List.InsertIdx
import ProgramTree.Proofs.Tree.Outcome

/-! # When edits succeed, and what they do

For each edit the exact condition under which it is accepted on a well-formed
tree, the change that it answers, and the tree that it leaves. A replacement
and a move are accepted exactly when the node can be inserted once the old
place is unlinked, although both check against the tree from before. -/

namespace ProgramTree.Tree

set_option autoImplicit false

/-- What an insertion asks for. -/
structure CanInsert (t : Tree) (parent : NodeId) (index : Nat) (node : NodeId) : Prop where
  parent_live : t.contains parent = true
  node_live : t.contains node = true
  not_root : node ≠ t.root
  free : t.parent? node = none
  index_le : index ≤ (t.children parent).length
  outside : ¬ t.Within parent node
  layout : ∀ kind childKind, t.kind? parent = some kind → t.kind? node = some childKind →
    Layout.check kind ((t.kindsOf (t.children parent)).insertIdx index childKind) = .ok ()

/-- The node is free, and can be inserted once the old child is unlinked. -/
structure CanReplace (t : Tree) (parent : NodeId) (index : Nat) (old node : NodeId) : Prop where
  place : (t.children parent)[index]? = some old
  free : t.parent? node = none
  insert : (t.unlink parent index old).CanInsert parent index node

/-- The node can be inserted at the new place once it is unlinked from the old one. -/
structure CanMove (t : Tree) (fromParent : NodeId) (fromIndex : Nat) (toParent : NodeId)
    (toIndex : Nat) (node : NodeId) : Prop where
  place : (t.children fromParent)[fromIndex]? = some node
  insert : (t.unlink fromParent fromIndex node).CanInsert toParent toIndex node

section Writes

variable (t : Tree) (id other : NodeId)

theorem modifyNode_modifyNode (f g : Node → Node) :
    (t.modifyNode id f).modifyNode id g = t.modifyNode id (g ∘ f) :=
  congrArg (Tree.mk · t.root) (t.nodes.modify_modify id f g)

variable {id other} in
theorem modifyNode_comm (hne : id ≠ other) (f g : Node → Node) :
    (t.modifyNode id f).modifyNode other g = (t.modifyNode other g).modifyNode id f :=
  congrArg (Tree.mk · t.root) (t.nodes.modify_comm hne f g)

theorem mapChildren_mapChildren (f g : List NodeId → List NodeId) :
    (t.mapChildren id f).mapChildren id g = t.mapChildren id (g ∘ f) :=
  t.modifyNode_modifyNode id _ _

theorem setParent_setParent (parent parent' : Option NodeId) :
    (t.setParent id parent).setParent id parent' = t.setParent id parent' :=
  t.modifyNode_modifyNode id _ _

theorem setParent_mapChildren (parent : Option NodeId) (f : List NodeId → List NodeId) :
    (t.setParent id parent).mapChildren other f = (t.mapChildren other f).setParent id parent := by
  by_cases hne : id = other
  · subst hne
    unfold setParent mapChildren
    rw [modifyNode_modifyNode, modifyNode_modifyNode]
    rfl
  · exact t.modifyNode_comm hne _ _

variable {id other} in
theorem setParent_comm (hne : id ≠ other) (parent parent' : Option NodeId) :
    (t.setParent id parent).setParent other parent' =
      (t.setParent other parent').setParent id parent :=
  t.modifyNode_comm hne _ _

theorem mapChildren_congr (f g : List NodeId → List NodeId)
    (h : f (t.children id) = g (t.children id)) : t.mapChildren id f = t.mapChildren id g := by
  refine congrArg (Tree.mk · t.root) (t.nodes.modify_congr id _ _ ?_)
  intro node hnode
  have hchildren : t.children id = node.children := by
    simp [children, node?, hnode]
  rw [← hchildren, h]

/-- The writes of a move are an unlinking and a linking. -/
theorem link_unlink {fromParent toParent node : NodeId} (fromIndex toIndex : Nat) :
    (t.unlink fromParent fromIndex node).link toParent toIndex node =
      ((t.mapChildren fromParent (·.eraseIdx fromIndex)).mapChildren toParent
        (·.insertIdx toIndex node)).setParent node (some toParent) := by
  rw [unlink, link, setParent_mapChildren, setParent_setParent]

theorem link_unlink_same {parent old node : NodeId} {index : Nat}
    (hlt : index < (t.children parent).length) (hne : node ≠ old) :
    (t.unlink parent index old).link parent index node =
      ((t.mapChildren parent (·.set index node)).setParent node (some parent)).setParent old none := by
  rw [unlink, link, setParent_mapChildren, setParent_comm _ hne.symm, mapChildren_mapChildren]
  rw [t.mapChildren_congr parent _ (·.set index node)
    (List.insertIdx_eraseIdx_self (Nat.ne_of_lt hlt) node)]

end Writes

section Unlinked

variable {t : Tree} (h : t.WellFormed) {parent node : NodeId} {index : Nat}
  (hnode : (t.children parent)[index]? = some node)
include h hnode

theorem within_unlink_of_not_within {id top : NodeId} (hout : ¬ t.Within id node) :
    (t.unlink parent index node).Within id top ↔ t.Within id top := by
  constructor
  · exact Within.mono (h.parent?_of_parent?_unlink hnode)
  · intro hw
    induction hw with
    | refl => exact .refl _
    | @step id above top hsome _ ih =>
      have hne : id ≠ node := fun he => hout (within_iff.mpr (Or.inl he))
      refine .step ?_ (ih fun habove => hout (.step hsome habove))
      rw [parent?_unlink _ _ (h.live_of_children_getElem? hnode).2, if_neg hne, hsome]

theorem within_unlink_self {id : NodeId} :
    (t.unlink parent index node).Within id node ↔ t.Within id node := by
  constructor
  · exact Within.mono (h.parent?_of_parent?_unlink hnode)
  · intro hw
    generalize hn : node = top at hw
    induction hw with
    | refl => exact .refl _
    | @step id above top hsome _ ih =>
      subst hn
      by_cases hne : id = node
      · exact within_iff.mpr (Or.inl hne)
      · refine .step ?_ (ih rfl)
        rw [parent?_unlink _ _ (h.live_of_children_getElem? hnode).2, if_neg hne, hsome]

theorem kindsOf_children_unlink (other : NodeId) :
    (t.unlink parent index node).kindsOf ((t.unlink parent index node).children other) =
      if parent = other then (t.kindsOf (t.children other)).eraseIdx index
      else t.kindsOf (t.children other) := by
  have hkinds : (t.unlink parent index node).kindsOf = t.kindsOf := by
    funext ids
    simp [kindsOf]
  rw [hkinds, children_unlink _ _ (h.live_of_children_getElem? hnode).1]
  by_cases he : parent = other
  · subst he
    rw [if_pos rfl, if_pos rfl]
    exact filterMap_eraseIdx (h.kind?_child_isSome parent) index
  · rw [if_neg he, if_neg (Ne.symm he)]

end Unlinked

/-- What holds of the kinds of two nodes, as a layout asks for it. -/
theorem of_kinds {t : Tree} {parent node : NodeId} {kind childKind : NodeKind}
    {P : NodeKind → NodeKind → Prop} (hkind : t.kind? parent = some kind)
    (hchild : t.kind? node = some childKind) (h : P kind childKind) :
    ∀ kind childKind, t.kind? parent = some kind → t.kind? node = some childKind →
      P kind childKind := by
  intro kind' childKind' hkind' hchild'
  rw [hkind] at hkind'
  rw [hchild] at hchild'
  cases hkind'
  cases hchild'
  exact h

section Outcomes

open Edit

variable {t : Tree} (h : t.WellFormed)
include h

theorem decides_insertChild (parent : NodeId) (index : Nat) (node : NodeId) :
    (insertChild parent index node).Decides t (t.CanInsert parent index node)
      (.inserted parent index node) (t.link parent index node) := by
  unfold insertChild
  obtain ⟨payload, hread⟩ := decides_nodeOf (t := t) parent
  refine .bind hread (fun hparent => ?_) fun can => can.parent_live
  refine .bind (decides_checkInsertable node .insertion) (fun ⟨hlive, hroot, hfree⟩ => ?_)
    fun can => ⟨can.node_live, can.not_root, can.free⟩
  refine .bind (decides_ensure _ _) (fun hindex => ?_) fun can => decide_eq_true can.index_le
  have hindex : index ≤ (t.children parent).length := of_decide_eq_true hindex
  refine .bind (decides_checkAcyclic h node parent) (fun hout => ?_) fun can => can.outside
  refine .after (outcome_childKinds h hparent) ?_
  obtain ⟨childKind, hchild⟩ := exists_kind? hlive
  refine .after (outcome_kindOf hchild) ?_
  obtain ⟨kind, hkind⟩ := exists_kind? hparent
  refine .bind (decides_checkLayout hkind _) (fun hlayout => ?_)
    fun can => can.layout kind childKind hkind hchild
  refine .of_ok ?_ ⟨hparent, hlive, hroot, hfree, hindex, hout, of_kinds hkind hchild hlayout⟩
  rw [outcome_bind_of_ok (outcome_write hparent _),
    outcome_bind_of_ok (outcome_write (by simpa using hlive) _)]
  rfl

theorem decides_appendChild (parent node : NodeId) :
    (appendChild parent node).Decides t (t.CanInsert parent (t.children parent).length node)
      (.inserted parent (t.children parent).length node)
      (t.link parent (t.children parent).length node) := by
  unfold appendChild
  obtain ⟨payload, hread⟩ := decides_nodeOf (t := t) parent
  exact .bind hread (fun _ => decides_insertChild h parent _ node) fun can => can.parent_live

theorem decides_removeChild (parent : NodeId) (index : Nat) (node : NodeId)
    (hnode : (t.children parent)[index]? = some node ∨ (t.children parent)[index]? = none) :
    (removeChild parent index).Decides t ((t.children parent)[index]? = some node)
      (.removed parent index node) (t.unlink parent index node) := by
  unfold removeChild
  refine .bind (decides_childAt hnode) (fun hnode => ?_) id
  obtain ⟨hparent, hlive⟩ := h.live_of_children_getElem? hnode
  refine .of_ok ?_ hnode
  rw [outcome_bind_of_ok (outcome_write hparent _),
    outcome_bind_of_ok (outcome_write (by simpa using hlive) _)]
  rfl

theorem decides_replaceChild (parent : NodeId) (index : Nat) (old node : NodeId)
    (hold : (t.children parent)[index]? = some old ∨ (t.children parent)[index]? = none) :
    (replaceChild parent index node).Decides t (t.CanReplace parent index old node)
      (.replaced parent index old node) ((t.unlink parent index old).link parent index node) := by
  unfold replaceChild
  refine .bind (decides_childAt hold) (fun hold => ?_) fun can => can.place
  obtain ⟨hparent, holdLive⟩ := h.live_of_children_getElem? hold
  refine .bind (decides_checkInsertable node .replacement) (fun ⟨hlive, hroot, hfree⟩ => ?_)
    fun can => ⟨by simpa using can.insert.node_live, by simpa using can.insert.not_root, can.free⟩
  have holdParent : t.parent? old = some parent :=
    h.parent_iff.mpr (List.mem_of_getElem? hold)
  have hne : node ≠ old := by
    rintro rfl
    rw [holdParent] at hfree
    cases hfree
  -- the parent of the old child does not lie within it, so unlinking does not cut the walk
  have hwithin : (t.unlink parent index old).Within parent node ↔ t.Within parent node :=
    within_unlink_of_not_within h hold ((h.grounded old).parent_not_within holdParent)
  refine .bind (decides_checkAcyclic h node parent) (fun hout => ?_)
    fun can => (hwithin.not.mp can.insert.outside)
  refine .after (outcome_childKinds h hparent) ?_
  obtain ⟨childKind, hchild⟩ := exists_kind? hlive
  refine .after (outcome_kindOf hchild) ?_
  obtain ⟨kind, hkind⟩ := exists_kind? hparent
  have hlt : index < (t.children parent).length := (List.getElem?_eq_some_iff.mp hold).1
  have hkinds : (t.kindsOf (t.children parent)).set index childKind =
      ((t.unlink parent index old).kindsOf ((t.unlink parent index old).children parent)).insertIdx
        index childKind := by
    rw [kindsOf_children_unlink h hold, if_pos rfl]
    have hltKinds : index < (t.kindsOf (t.children parent)).length :=
      h.length_kindsOf_children ▸ hlt
    exact (List.insertIdx_eraseIdx_self (Nat.ne_of_lt hltKinds) childKind).symm
  refine .bind (decides_checkLayout hkind _) (fun hlayout => ?_) fun can => by
    rw [hkinds]
    exact can.insert.layout kind childKind (by simpa using hkind) (by simpa using hchild)
  have hunlinkFree : (t.unlink parent index old).parent? node = none := by
    rw [parent?_unlink _ _ holdLive, if_neg hne, hfree]
  refine .of_ok ?_ ⟨hold, hfree, by simpa using hparent, by simpa using hlive,
    by simpa using hroot, hunlinkFree, ?_, hwithin.not.mpr hout,
    of_kinds (by simpa using hkind) (by simpa using hchild) (hkinds ▸ hlayout)⟩
  · rw [outcome_bind_of_ok (outcome_write hparent _),
      outcome_bind_of_ok (outcome_write (by simpa using hlive) _),
      outcome_bind_of_ok (outcome_write (by simpa using holdLive) _),
      link_unlink_same t hlt hne]
    rfl
  · rw [children_unlink _ _ hparent, if_pos rfl, List.length_eraseIdx, if_pos hlt]
    omega

theorem decides_moveChild (fromParent : NodeId) (fromIndex : Nat) (toParent : NodeId)
    (toIndex : Nat) (node : NodeId)
    (hnode : (t.children fromParent)[fromIndex]? = some node ∨
      (t.children fromParent)[fromIndex]? = none) :
    (moveChild fromParent fromIndex toParent toIndex).Decides t
      (t.CanMove fromParent fromIndex toParent toIndex node)
      (.moved node fromParent fromIndex toParent toIndex)
      ((t.unlink fromParent fromIndex node).link toParent toIndex node) := by
  unfold moveChild
  refine .bind (decides_childAt hnode) (fun hnode => ?_) fun can => can.place
  obtain ⟨hfrom, hlive⟩ := h.live_of_children_getElem? hnode
  obtain ⟨payload, hread⟩ := decides_nodeOf (t := t) toParent
  refine .bind hread (fun hto => ?_) fun can => by simpa using can.insert.parent_live
  have hwithin : (t.unlink fromParent fromIndex node).Within toParent node ↔
      t.Within toParent node := within_unlink_self h hnode
  refine .bind (decides_checkAcyclic h node toParent) (fun hout => ?_)
    fun can => hwithin.not.mp can.insert.outside
  refine .after (outcome_childKinds h hto) ?_
  have hkinds := kindsOf_children_unlink h hnode toParent
  have hlength := (congrArg List.length hkinds).symm
  rw [(h.unlink hnode).length_kindsOf_children] at hlength
  refine .bind (decides_ensure _ _) (fun hindex => ?_)
    fun can => decide_eq_true (hlength ▸ can.insert.index_le)
  have hindex := of_decide_eq_true hindex
  obtain ⟨childKind, hchild⟩ := exists_kind? hlive
  refine .after (outcome_kindOf hchild) ?_
  obtain ⟨kind, hkind⟩ := exists_kind? hto
  refine .bind (decides_checkLayout hkind _) (fun hlayout => ?_) fun can => by
    rw [← hkinds]
    exact can.insert.layout kind childKind (by simpa using hkind) (by simpa using hchild)
  have hroot : node ≠ t.root := by
    rintro rfl
    have hparent := h.parent_iff.mpr (List.mem_of_getElem? hnode)
    rw [h.root_top] at hparent
    cases hparent
  have hfree : (t.unlink fromParent fromIndex node).parent? node = none := by
    rw [parent?_unlink _ _ hlive, if_pos rfl]
  refine .of_ok ?_ ⟨hnode, by simpa using hto, by simpa using hlive, by simpa using hroot,
    hfree, hlength ▸ hindex, hwithin.not.mpr hout,
    of_kinds (by simpa using hkind) (by simpa using hchild) (hkinds ▸ hlayout)⟩
  rw [outcome_bind_of_ok (outcome_write hfrom _),
    outcome_bind_of_ok (outcome_write (by simpa using hto) _),
    outcome_bind_of_ok (outcome_write (by simpa using hlive) _), link_unlink]
  rfl

omit h in
theorem decides_update (node : NodeId) (old payload : Payload)
    (hold : t.payload? node = some old ∨ t.payload? node = none) :
    (update node payload).Decides t (t.kind? node = some payload.kind) (old, .updated node)
      (t.setPayload node payload) := by
  unfold update
  rcases hold with hold | hnone
  · have hkind : t.kind? node = some old.kind := by simp [kind?, hold]
    have hlive := contains_of_kind? hkind
    obtain ⟨found, hfound, hread⟩ := outcome_nodeOf_of_live hlive
    have hsame : found = old := by simpa [hfound] using hold
    subst hsame
    refine .after hread ?_
    refine .bind (decides_ensure _ _) (fun hsame => ?_) fun hsame => ?_
    · have hsame : found.kind = payload.kind := by simpa using hsame
      refine .of_ok ?_ (hsame ▸ hkind)
      rw [outcome_bind_of_ok (outcome_write hlive _)]
      rfl
    · rw [hkind] at hsame
      simpa using hsame
  · have hdead : t.contains node ≠ true := by
      intro hlive
      obtain ⟨kind, hkind⟩ := exists_kind? hlive
      simp [kind?, hnone] at hkind
    refine .of_error (outcome_bind_of_error (outcome_nodeOf_of_dead hdead)) ?_
    simp [kind?, hnone]

omit h in
theorem decides_discard (node : NodeId) :
    (discard node).Decides t
      (t.contains node = true ∧ node ≠ t.root ∧ t.parent? node = none)
      (t.freeBranch node).1 (t.freeBranch node).2 := by
  unfold discard
  obtain ⟨payload, hread⟩ := decides_nodeOf (t := t) node
  refine .bind hread (fun hlive => ?_) fun h => h.1
  refine .after (outcome_get t) ?_
  refine .bind (decides_ensure _ _) (fun hroot => ?_) (fun h => by simpa using h.2.1)
  have hne : node ≠ t.root := by simpa using hroot
  cases hparent : t.parent? node with
  | none => exact .of_ok rfl ⟨hlive, hne, rfl⟩
  | some parent => exact .of_error (outcome_throw _ t) (by simp)

end Outcomes

namespace WellFormed

variable {t : Tree} (h : t.WellFormed)
include h

theorem insert {parent node : NodeId} {index : Nat} (can : t.CanInsert parent index node) :
    (t.link parent index node).WellFormed :=
  h.link can.parent_live can.node_live can.free can.index_le can.not_root can.outside can.layout

theorem replace {parent old node : NodeId} {index : Nat}
    (can : t.CanReplace parent index old node) :
    ((t.unlink parent index old).link parent index node).WellFormed :=
  (h.unlink can.place).insert can.insert

theorem move {fromParent toParent node : NodeId} {fromIndex toIndex : Nat}
    (can : t.CanMove fromParent fromIndex toParent toIndex node) :
    ((t.unlink fromParent fromIndex node).link toParent toIndex node).WellFormed :=
  (h.unlink can.place).insert can.insert

/-- A payload of the same kind keeps every layout. -/
theorem setPayload {node : NodeId} {payload : Payload}
    (hkind : t.kind? node = some payload.kind) : (t.setPayload node payload).WellFormed := by
  have hlive := contains_of_kind? hkind
  have hkinds : ∀ id, (t.setPayload node payload).kind? id = t.kind? id := by
    intro id
    rw [Tree.kind?, payload?_setPayload _ _ hlive]
    split
    · rename_i he
      rw [he, hkind]
      rfl
    · rfl
  refine ⟨sound_modifyNode h.sound _ _, by simpa using h.root_live, by simpa using h.root_top,
    ?_, ?_, ?_, ?_, ?_⟩
  · intro child parent hchild
    rw [contains_setPayload]
    exact h.child_live (by simpa using hchild)
  · intro child parent
    simpa using h.parent_iff
  · intro parent
    simpa using h.children_nodup parent
  · exact fun id => (h.grounded id).mono fun _ _ hparent => by simpa using hparent
  · intro parent kind hparent
    rw [hkinds] at hparent
    have hfun : (t.setPayload node payload).kindsOf = t.kindsOf := by
      funext ids
      simp [kindsOf, hkinds]
    rw [hfun, children_setPayload]
    exact h.layout hparent

end WellFormed

end ProgramTree.Tree
