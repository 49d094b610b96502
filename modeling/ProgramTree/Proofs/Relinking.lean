import Mathlib.Logic.Function.Basic
import ProgramTree.Proofs.Document

/-! # Which edits are granted, and what becomes of the links

An edit decides by climbing parent links and by reading kinds from the child
lists as they will be. Here its condition is stated from above: a node may not
come to stand under one that is reached from it through child lists, and the
child list that comes about has to be admissible. An edit that is granted
changes the child lists at the places that it names and the parents that go
with them, and nothing else. -/

namespace ProgramTree

set_option autoImplicit false

namespace Tree

/-- Following child lists leads from the top to the node. -/
inductive ReachedFrom (t : Tree) (top : NodeId) : NodeId → Prop
  | top : t.ReachedFrom top top
  | child {above id : NodeId} :
      t.ReachedFrom top above → id ∈ t.children above → t.ReachedFrom top id

/-- The parent accepts the kinds of the given nodes, in their order. -/
def Admits (t : Tree) (parent : NodeId) (ids : List NodeId) : Prop :=
  ∃ kind kinds, t.kind? parent = some kind ∧ ids.map t.kind? = kinds.map some ∧
    Layout.check kind kinds = .ok ()

/-- The child lists once the child at a place is taken out. -/
def childrenWithout (t : Tree) (parent : NodeId) (index : Nat) : NodeId → List NodeId :=
  Function.update t.children parent ((t.children parent).eraseIdx index)

structure MayInsert (t : Tree) (parent : NodeId) (index : Nat) (node : NodeId) : Prop where
  parent_live : t.contains parent = true
  node_live : t.contains node = true
  not_root : node ≠ t.root
  free : t.parent? node = none
  place : index ≤ (t.children parent).length
  outside : ¬ t.ReachedFrom node parent
  admits : t.Admits parent ((t.children parent).insertIdx index node)

structure MayReplace (t : Tree) (parent : NodeId) (index : Nat) (old node : NodeId) : Prop where
  parent_live : t.contains parent = true
  node_live : t.contains node = true
  not_root : node ≠ t.root
  free : t.parent? node = none
  place : (t.children parent)[index]? = some old
  outside : ¬ t.ReachedFrom node parent
  admits : t.Admits parent ((t.children parent).set index node)

structure MayMove (t : Tree) (fromParent : NodeId) (fromIndex : Nat) (toParent : NodeId)
    (toIndex : Nat) (node : NodeId) : Prop where
  from_live : t.contains fromParent = true
  to_live : t.contains toParent = true
  origin : (t.children fromParent)[fromIndex]? = some node
  outside : ¬ t.ReachedFrom node toParent
  place : toIndex ≤ (t.childrenWithout fromParent fromIndex toParent).length
  admits : t.Admits toParent
    ((t.childrenWithout fromParent fromIndex toParent).insertIdx toIndex node)

/-- The second tree has the given child lists and parents, which agree with one another. All else
is as in the first tree. -/
structure RelinkedTo (t t' : Tree) (children : NodeId → List NodeId)
    (parent? : NodeId → Option NodeId) : Prop where
  children : t'.children = children
  parent : t'.parent? = parent?
  agree : ∀ id above, t'.parent? id = some above ↔ id ∈ t'.children above
  payload : ∀ id, t'.payload? id = t.payload? id
  live : ∀ id, t'.contains id = t.contains id
  root : t'.root = t.root

section Conditions

variable {t : Tree}

theorem admits_iff {parent : NodeId} {kind : NodeKind} {ids : List NodeId}
    (hkind : t.kind? parent = some kind) (hids : ∀ id ∈ ids, (t.kind? id).isSome) :
    t.Admits parent ids ↔ Layout.check kind (t.kindsOf ids) = .ok () := by
  constructor
  · intro hadmits
    obtain ⟨kind', kinds, hkind', hkinds, hcheck⟩ := hadmits
    rw [hkind] at hkind'
    cases hkind'
    rw [map_kind?_eq hids] at hkinds
    rwa [List.map_injective_iff.mpr (fun _ _ => Option.some.inj) hkinds]
  · intro hcheck
    exact ⟨kind, t.kindsOf ids, hkind, map_kind?_eq hids, hcheck⟩

/-- Unlinking changes no kind. -/
theorem admits_unlink (parent : NodeId) (index : Nat) (node above : NodeId) (ids : List NodeId) :
    (t.unlink parent index node).Admits above ids ↔ t.Admits above ids := by
  have hkind : (t.unlink parent index node).kind? = t.kind? := by
    funext id
    simp
  rw [Admits, hkind, Admits]

variable (h : t.WellFormed)
include h

theorem reachedFrom_iff (top id : NodeId) : t.ReachedFrom top id ↔ t.Within id top := by
  constructor
  · intro hreached
    induction hreached with
    | top => exact .refl top
    | child _ hid ih => exact .step (h.parent_iff.mpr hid) ih
  · intro hwithin
    induction hwithin with
    | refl => exact .top
    | step hparent _ ih => exact .child ih (h.parent_iff.mp hparent)

/-- The layout is that of the child list with the node in it. -/
theorem admits_insertIdx_iff {parent node : NodeId} {index : Nat}
    (hparent : t.contains parent = true) (hnode : t.contains node = true)
    (hindex : index ≤ (t.children parent).length) :
    t.Admits parent ((t.children parent).insertIdx index node) ↔
      ∀ kind childKind, t.kind? parent = some kind → t.kind? node = some childKind →
        Layout.check kind ((t.kindsOf (t.children parent)).insertIdx index childKind) = .ok () := by
  obtain ⟨kind, hkind⟩ := exists_kind? hparent
  obtain ⟨childKind, hchild⟩ := exists_kind? hnode
  have hall := h.kind?_child_isSome parent
  have hids : ∀ id ∈ (t.children parent).insertIdx index node, (t.kind? id).isSome := by
    intro id hid
    rcases (List.mem_insertIdx hindex).mp hid with rfl | hid
    · simp [hchild]
    · exact hall id hid
  have hkinds : t.kindsOf ((t.children parent).insertIdx index node) =
      (t.kindsOf (t.children parent)).insertIdx index childKind :=
    filterMap_insertIdx hall hchild index
  rw [admits_iff hkind hids, hkinds]
  simp [hkind, hchild]

theorem canInsert_iff (parent : NodeId) (index : Nat) (node : NodeId) :
    t.CanInsert parent index node ↔ t.MayInsert parent index node := by
  constructor
  · intro can
    exact ⟨can.parent_live, can.node_live, can.not_root, can.free, can.index_le,
      (reachedFrom_iff h node parent).not.mpr can.outside,
      (admits_insertIdx_iff h can.parent_live can.node_live can.index_le).mpr can.layout⟩
  · intro may
    exact ⟨may.parent_live, may.node_live, may.not_root, may.free, may.place,
      (reachedFrom_iff h node parent).not.mp may.outside,
      (admits_insertIdx_iff h may.parent_live may.node_live may.place).mp may.admits⟩

section Unlinked

variable {parent node : NodeId} {index : Nat} (hnode : (t.children parent)[index]? = some node)
include hnode

theorem children_unlink_eq :
    (t.unlink parent index node).children = t.childrenWithout parent index := by
  funext other
  rw [children_unlink _ _ (h.live_of_children_getElem? hnode).1, childrenWithout,
    Function.update_apply]

theorem parent?_unlink_eq :
    (t.unlink parent index node).parent? = Function.update t.parent? node none := by
  funext other
  rw [parent?_unlink _ _ (h.live_of_children_getElem? hnode).2, Function.update_apply]

omit h in
/-- The child list of the old parent, with another node in the place of the child. -/
theorem insertIdx_childrenWithout (other : NodeId) :
    (t.childrenWithout parent index parent).insertIdx index other =
      (t.children parent).set index other := by
  have hlt : index < (t.children parent).length := (List.getElem?_eq_some_iff.mp hnode).1
  rw [childrenWithout, Function.update_self]
  exact List.insertIdx_eraseIdx_self (Nat.ne_of_lt hlt) other

theorem ne_of_free {other : NodeId} (hfree : t.parent? other = none) : other ≠ node := by
  intro he
  rw [he, h.parent_iff.mpr (List.mem_of_getElem? hnode)] at hfree
  cases hfree

theorem ne_root_of_child : node ≠ t.root :=
  (ne_of_free h hnode h.root_top).symm

end Unlinked

theorem canReplace_iff (parent : NodeId) (index : Nat) (old node : NodeId) :
    t.CanReplace parent index old node ↔ t.MayReplace parent index old node := by
  -- what the unlinked tree asks for, in terms of the tree itself
  have hinsert : (t.children parent)[index]? = some old → t.parent? node = none →
      ((t.unlink parent index old).CanInsert parent index node ↔
        t.contains parent = true ∧ t.contains node = true ∧ node ≠ t.root ∧
          ¬ t.ReachedFrom node parent ∧ t.Admits parent ((t.children parent).set index node)) := by
    intro hold hfree
    have hbelow := (h.grounded old).parent_not_within (h.parent_iff.mpr (List.mem_of_getElem? hold))
    have hlt : index < (t.children parent).length := (List.getElem?_eq_some_iff.mp hold).1
    have hlength : index ≤ (t.childrenWithout parent index parent).length := by
      rw [childrenWithout, Function.update_self, List.length_eraseIdx, if_pos hlt]
      omega
    have hunlinked : (t.unlink parent index old).parent? node = none := by
      rw [parent?_unlink_eq h hold, Function.update_of_ne (ne_of_free h hold hfree), hfree]
    rw [canInsert_iff (h.unlink hold)]
    constructor
    · intro may
      refine ⟨by simpa using may.parent_live, by simpa using may.node_live,
        by simpa using may.not_root, ?_, ?_⟩
      · have houtside := (reachedFrom_iff (h.unlink hold) node parent).not.mp may.outside
        rw [within_unlink_of_not_within h hold hbelow] at houtside
        exact (reachedFrom_iff h node parent).not.mpr houtside
      · have hadmits := (admits_unlink ..).mp may.admits
        rwa [children_unlink_eq h hold, insertIdx_childrenWithout hold] at hadmits
    · intro ⟨hparent, hnode, hroot, houtside, hadmits⟩
      refine ⟨by simpa using hparent, by simpa using hnode, by simpa using hroot, hunlinked, ?_, ?_,
        ?_⟩
      · rwa [children_unlink_eq h hold]
      · rw [reachedFrom_iff (h.unlink hold), within_unlink_of_not_within h hold hbelow]
        exact (reachedFrom_iff h node parent).not.mp houtside
      · rwa [admits_unlink, children_unlink_eq h hold, insertIdx_childrenWithout hold]
  constructor
  · intro can
    obtain ⟨hparent, hnode, hroot, houtside, hadmits⟩ := (hinsert can.place can.free).mp can.insert
    exact ⟨hparent, hnode, hroot, can.free, can.place, houtside, hadmits⟩
  · intro may
    exact ⟨may.place, may.free, (hinsert may.place may.free).mpr
      ⟨may.parent_live, may.node_live, may.not_root, may.outside, may.admits⟩⟩

theorem canMove_iff (fromParent : NodeId) (fromIndex : Nat) (toParent : NodeId) (toIndex : Nat)
    (node : NodeId) : t.CanMove fromParent fromIndex toParent toIndex node ↔
      t.MayMove fromParent fromIndex toParent toIndex node := by
  constructor
  · intro can
    have may := (canInsert_iff (h.unlink can.place) toParent toIndex node).mp can.insert
    refine ⟨(h.live_of_children_getElem? can.place).1, by simpa using may.parent_live, can.place,
      ?_, ?_, ?_⟩
    · have houtside := (reachedFrom_iff (h.unlink can.place) node toParent).not.mp may.outside
      rw [within_unlink_self h can.place] at houtside
      exact (reachedFrom_iff h node toParent).not.mpr houtside
    · simpa only [children_unlink_eq h can.place] using may.place
    · have hadmits := (admits_unlink ..).mp may.admits
      rwa [children_unlink_eq h can.place] at hadmits
  · intro may
    have hunlink := h.unlink may.origin
    obtain ⟨_, hlive⟩ := h.live_of_children_getElem? may.origin
    refine ⟨may.origin, (canInsert_iff hunlink toParent toIndex node).mpr
      ⟨by simpa using may.to_live, by simpa using hlive, ?_, ?_, ?_, ?_, ?_⟩⟩
    · simpa using ne_root_of_child h may.origin
    · rw [parent?_unlink_eq h may.origin, Function.update_self]
    · rw [children_unlink_eq h may.origin]
      exact may.place
    · rw [reachedFrom_iff hunlink, within_unlink_self h may.origin]
      exact (reachedFrom_iff h node toParent).not.mp may.outside
    · rw [admits_unlink, children_unlink_eq h may.origin]
      exact may.admits

end Conditions

section Results

variable {t t' t'' : Tree} {lists lists' : NodeId → List NodeId}
  {parents parents' : NodeId → Option NodeId}

/-- Only the last step decides the links. -/
theorem RelinkedTo.trans (first : t.RelinkedTo t' lists parents)
    (second : t'.RelinkedTo t'' lists' parents') : t.RelinkedTo t'' lists' parents' where
  children := second.children
  parent := second.parent
  agree := second.agree
  payload := fun id => (second.payload id).trans (first.payload id)
  live := fun id => (second.live id).trans (first.live id)
  root := second.root.trans first.root

variable (h : t.WellFormed)
include h

theorem relinkedTo_link {parent node : NodeId} {index : Nat} (can : t.CanInsert parent index node) :
    t.RelinkedTo (t.link parent index node)
      (Function.update t.children parent ((t.children parent).insertIdx index node))
      (Function.update t.parent? node (some parent)) where
  children := by
    funext other
    rw [children_link _ _ can.parent_live, Function.update_apply]
  parent := by
    funext other
    rw [parent?_link _ _ can.node_live, Function.update_apply]
  agree := fun _ _ => (h.insert can).parent_iff
  payload := fun _ => payload?_link _ _
  live := fun _ => contains_link _ _
  root := rfl

theorem relinkedTo_unlink {parent node : NodeId} {index : Nat}
    (hnode : (t.children parent)[index]? = some node) :
    t.RelinkedTo (t.unlink parent index node) (t.childrenWithout parent index)
      (Function.update t.parent? node none) where
  children := children_unlink_eq h hnode
  parent := parent?_unlink_eq h hnode
  agree := fun _ _ => (h.unlink hnode).parent_iff
  payload := fun _ => payload?_unlink _ _
  live := fun _ => contains_unlink _ _
  root := rfl

theorem relinkedTo_replace {parent old node : NodeId} {index : Nat}
    (can : t.CanReplace parent index old node) :
    t.RelinkedTo ((t.unlink parent index old).link parent index node)
      (Function.update t.children parent ((t.children parent).set index node))
      (Function.update (Function.update t.parent? old none) node (some parent)) := by
  have hboth := (relinkedTo_unlink h can.place).trans
    (relinkedTo_link (h.unlink can.place) can.insert)
  rw [children_unlink_eq h can.place, parent?_unlink_eq h can.place,
    insertIdx_childrenWithout can.place] at hboth
  rwa [childrenWithout, Function.update_idem] at hboth

theorem relinkedTo_move {fromParent toParent node : NodeId} {fromIndex toIndex : Nat}
    (can : t.CanMove fromParent fromIndex toParent toIndex node) :
    t.RelinkedTo ((t.unlink fromParent fromIndex node).link toParent toIndex node)
      (Function.update (t.childrenWithout fromParent fromIndex) toParent
        ((t.childrenWithout fromParent fromIndex toParent).insertIdx toIndex node))
      (Function.update t.parent? node (some toParent)) := by
  have hboth := (relinkedTo_unlink h can.place).trans
    (relinkedTo_link (h.unlink can.place) can.insert)
  rwa [children_unlink_eq h can.place, parent?_unlink_eq h can.place, Function.update_idem] at hboth

end Results

end Tree

namespace Document

open Edit

/-- The edit was granted with the given change, and left the given child lists and parents. -/
def Granted (d : Document) (result : Except EditError Change × Document) (change : Change)
    (lists : NodeId → List NodeId) (parents : NodeId → Option NodeId) : Prop :=
  result.1 = .ok change ∧ d.tree.RelinkedTo result.2.tree lists parents

section Granted

variable {d : Document} {x : Edit Change}

theorem granted_iff {condition : Prop} {change : Change} {t' : Tree}
    (hx : x.Decides d.tree condition change t') :
    (∃ answer, (d.perform x id).1 = .ok answer) ↔ condition := by
  constructor
  · intro ⟨answer, hok⟩
    exact condition_of_perform hok hx
  · intro hcondition
    exact ⟨change, congrArg Prod.fst (perform_of_ok (hx.accept hcondition) id)⟩

theorem granted_of_decides {condition : Prop} {change : Change} {t' : Tree}
    {lists : NodeId → List NodeId} {parents : NodeId → Option NodeId}
    (hx : x.Decides d.tree condition change t') (hcondition : condition)
    (hlinks : d.tree.RelinkedTo t' lists parents) :
    d.Granted (d.perform x id) change lists parents := by
  rw [Granted, perform_of_ok (hx.accept hcondition)]
  exact ⟨rfl, hlinks⟩

/-- An edit that takes a child from its place is decided by the child that stands there. -/
theorem granted_at_place {place : Option NodeId} {can may : NodeId → Prop}
    {change : NodeId → Change} {left : NodeId → Tree} {lists : NodeId → NodeId → List NodeId}
    {parents : NodeId → NodeId → Option NodeId}
    (hx : ∀ node, place = some node ∨ place = none →
      x.Decides d.tree (can node) (change node) (left node))
    (hcan : ∀ node, can node ↔ may node) (hplace : ∀ node, may node → place = some node)
    (hlinks : ∀ node, can node → d.tree.RelinkedTo (left node) (lists node) (parents node)) :
    ((∃ answer, (d.perform x id).1 = .ok answer) ↔ ∃ node, may node) ∧
      ∀ node, may node → d.Granted (d.perform x id) (change node) (lists node) (parents node) := by
  refine ⟨⟨?_, ?_⟩, ?_⟩
  · intro hok
    cases hfound : place with
    | some node => exact ⟨node, (hcan node).mp ((granted_iff (hx node (Or.inl hfound))).mp hok)⟩
    | none =>
      have may := (hcan d.tree.root).mp ((granted_iff (hx d.tree.root (Or.inr hfound))).mp hok)
      exact ⟨d.tree.root, may⟩
  · intro ⟨node, may⟩
    exact (granted_iff (hx node (Or.inl (hplace node may)))).mpr ((hcan node).mpr may)
  · intro node may
    have can := (hcan node).mpr may
    exact granted_of_decides (hx node (Or.inl (hplace node may))) can (hlinks node can)

end Granted

/-- To append is to insert behind the last child. -/
theorem appendChild_eq (d : Document) (parent node : NodeId) : d.appendChild parent node =
    d.insertChild parent (d.tree.children parent).length node := by
  have hsame : (Tree.appendChild parent node).outcome d.tree =
      (Tree.insertChild parent (d.tree.children parent).length node).outcome d.tree := by
    unfold Tree.appendChild
    by_cases hlive : d.tree.contains parent = true
    · obtain ⟨payload, _, hread⟩ := outcome_nodeOf_of_live hlive
      rw [outcome_bind_of_ok hread]
    · have hdead := outcome_nodeOf_of_dead hlive
      rw [Tree.insertChild, outcome_bind_of_error hdead, outcome_bind_of_error hdead]
  simp only [appendChild, insertChild, perform, run_eq, hsame]

/-- Each edit is granted exactly if the nodes are alive, the place exists, no node comes to stand
under one that is reached from it, and the child list that comes about is admissible. It then
changes the child lists at these places and the parents that go with them. -/
theorem edits_granted_exactly {d : Document} (h : d.Reachable) :
    (∀ parent index node,
      ((∃ change, (d.insertChild parent index node).1 = .ok change) ↔
        d.tree.MayInsert parent index node) ∧
      (d.tree.MayInsert parent index node →
        d.Granted (d.insertChild parent index node) (.inserted parent index node)
          (Function.update d.tree.children parent
            ((d.tree.children parent).insertIdx index node))
          (Function.update d.tree.parent? node (some parent)))) ∧
    (∀ parent node, d.appendChild parent node =
      d.insertChild parent (d.tree.children parent).length node) ∧
    (∀ parent index node,
      ((∃ change, (d.replaceChild parent index node).1 = .ok change) ↔
        ∃ old, d.tree.MayReplace parent index old node) ∧
      ∀ old, d.tree.MayReplace parent index old node →
        d.Granted (d.replaceChild parent index node) (.replaced parent index old node)
          (Function.update d.tree.children parent ((d.tree.children parent).set index node))
          (Function.update (Function.update d.tree.parent? old none) node (some parent))) ∧
    (∀ fromParent fromIndex toParent toIndex,
      ((∃ change, (d.moveChild fromParent fromIndex toParent toIndex).1 = .ok change) ↔
        ∃ node, d.tree.MayMove fromParent fromIndex toParent toIndex node) ∧
      ∀ node, d.tree.MayMove fromParent fromIndex toParent toIndex node →
        d.Granted (d.moveChild fromParent fromIndex toParent toIndex)
          (.moved node fromParent fromIndex toParent toIndex)
          (Function.update (d.tree.childrenWithout fromParent fromIndex) toParent
            ((d.tree.childrenWithout fromParent fromIndex toParent).insertIdx toIndex node))
          (Function.update d.tree.parent? node (some toParent))) ∧
    (∀ parent index,
      ((∃ change, (d.removeChild parent index).1 = .ok change) ↔
        ∃ node, (d.tree.children parent)[index]? = some node) ∧
      ∀ node, (d.tree.children parent)[index]? = some node →
        d.Granted (d.removeChild parent index) (.removed parent index node)
          (d.tree.childrenWithout parent index)
          (Function.update d.tree.parent? node none)) := by
  have hwf := h.tree.wellFormed
  refine ⟨?_, d.appendChild_eq, ?_, ?_, ?_⟩
  · intro parent index node
    have hdecides := Tree.decides_insertChild hwf parent index node
    have hcan := Tree.canInsert_iff hwf parent index node
    refine ⟨(granted_iff hdecides).trans hcan, ?_⟩
    intro may
    have can := hcan.mpr may
    exact granted_of_decides hdecides can (Tree.relinkedTo_link hwf can)
  · intro parent index node
    exact granted_at_place (fun old => Tree.decides_replaceChild hwf parent index old node)
      (fun old => Tree.canReplace_iff hwf parent index old node) (fun _ may => may.place)
      fun _ can => Tree.relinkedTo_replace hwf can
  · intro fromParent fromIndex toParent toIndex
    exact granted_at_place (Tree.decides_moveChild hwf fromParent fromIndex toParent toIndex)
      (Tree.canMove_iff hwf fromParent fromIndex toParent toIndex) (fun _ may => may.origin)
      fun _ can => Tree.relinkedTo_move hwf can
  · intro parent index
    exact granted_at_place (Tree.decides_removeChild hwf parent index) (fun _ => Iff.rfl)
      (fun _ hnode => hnode) fun _ hnode => Tree.relinkedTo_unlink hwf hnode

/-- A statement may move out of its block, but the block may not move into itself. -/
theorem block_granted_exactly :
    ∃ d : Document, d.Reachable ∧ d.tree.MayMove ⟨2, 0⟩ 0 ⟨1, 0⟩ 0 ⟨3, 0⟩ ∧
      (d.moveChild ⟨2, 0⟩ 0 ⟨1, 0⟩ 0).2.tree.children ⟨1, 0⟩ = [⟨3, 0⟩, ⟨2, 0⟩] ∧
      ¬ ∃ node, d.tree.MayMove ⟨1, 0⟩ 0 ⟨2, 0⟩ 0 node := by
  have hreach : (((((((ofTree (.new none)).after (.operation (.create (.function "f" [] [])))).after
      (.operation (.create .block))).after (.operation (.create .breakStatement))).after
      (.operation (.appendChild ⟨0, 0⟩ ⟨1, 0⟩))).after
      (.operation (.appendChild ⟨1, 0⟩ ⟨2, 0⟩))).after
      (.operation (.appendChild ⟨2, 0⟩ ⟨3, 0⟩))).Reachable :=
    .after _ (.after _ (.after _ (.after _ (.after _ (.after _ (.new none))))))
  obtain ⟨_, _, _, hmove, _⟩ := edits_granted_exactly hreach
  obtain ⟨node, may⟩ := (hmove ⟨2, 0⟩ 0 ⟨1, 0⟩ 0).1.mp ⟨_, rfl⟩
  have hnode : some (⟨3, 0⟩ : NodeId) = some node := may.origin
  cases hnode
  refine ⟨_, hreach, may, ?_, ?_⟩
  · rw [((hmove ⟨2, 0⟩ 0 ⟨1, 0⟩ 0).2 _ may).2.children]
    rfl
  · rw [← (hmove ⟨1, 0⟩ 0 ⟨2, 0⟩ 0).1]
    intro ⟨change, hok⟩
    cases hok

end Document
end ProgramTree
