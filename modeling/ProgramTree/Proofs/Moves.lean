import ProgramTree.Proofs.Document

/-! # Moves as removals and insertions

A move checks everything against the tree from before it, whereas an insertion
that follows a removal checks against the tree without the child. Both are
granted for the same places and lead to the same tree; only what is announced
differs. -/

namespace ProgramTree.Document

set_option autoImplicit false

section Steps

variable {d : Document} (h : d.Reachable) {parent node : NodeId} {index : Nat}
include h

theorem removeChild_of_place (hnode : (d.tree.children parent)[index]? = some node) :
    d.removeChild parent index = (.ok (.removed parent index node),
      d.changed (d.tree.unlink parent index node) (.removed parent index node)) :=
  perform_of_ok
    ((Tree.decides_removeChild h.tree.wellFormed parent index node (Or.inl hnode)).accept hnode) id

theorem place_of_removeChild
    (hok : (d.removeChild parent index).1 = .ok (.removed parent index node)) :
    (d.tree.children parent)[index]? = some node := by
  obtain ⟨other, hplace⟩ := d.tree.exists_place parent index
  have hother := condition_of_perform hok
    (Tree.decides_removeChild h.tree.wellFormed parent index other hplace)
  rw [removeChild_of_place h hother] at hok
  cases hok
  exact hother

end Steps

section Moves

variable {d : Document} (h : d.Reachable) {fromParent toParent node : NodeId}
  {fromIndex toIndex : Nat}
include h

theorem moveChild_of_canMove (can : d.tree.CanMove fromParent fromIndex toParent toIndex node) :
    d.moveChild fromParent fromIndex toParent toIndex =
      (.ok (.moved node fromParent fromIndex toParent toIndex),
        d.changed ((d.tree.unlink fromParent fromIndex node).link toParent toIndex node)
          (.moved node fromParent fromIndex toParent toIndex)) :=
  perform_of_ok ((Tree.decides_moveChild h.tree.wellFormed fromParent fromIndex toParent toIndex
    node (Or.inl can.place)).accept can) id

theorem canMove_of_moveChild {change : Change}
    (hok : (d.moveChild fromParent fromIndex toParent toIndex).1 = .ok change) :
    ∃ node, d.tree.CanMove fromParent fromIndex toParent toIndex node := by
  obtain ⟨node, hplace⟩ := d.tree.exists_place fromParent fromIndex
  exact ⟨node, condition_of_perform hok
    (Tree.decides_moveChild h.tree.wellFormed fromParent fromIndex toParent toIndex node hplace)⟩

/-- After the removal the insertion asks for what the move asks for before it. -/
theorem insertChild_of_canMove (can : d.tree.CanMove fromParent fromIndex toParent toIndex node)
    (change : Change) :
    (d.changed (d.tree.unlink fromParent fromIndex node) change).insertChild toParent toIndex node =
      (.ok (.inserted toParent toIndex node),
        (d.changed (d.tree.unlink fromParent fromIndex node) change).changed
          ((d.tree.unlink fromParent fromIndex node).link toParent toIndex node)
          (.inserted toParent toIndex node)) :=
  perform_of_ok ((Tree.decides_insertChild (h.tree.wellFormed.unlink can.place) toParent toIndex
    node).accept can.insert) id

theorem canMove_of_insertChild {removal change : Change}
    (hnode : (d.tree.children fromParent)[fromIndex]? = some node)
    (hok : ((d.changed (d.tree.unlink fromParent fromIndex node) removal).insertChild toParent
      toIndex node).1 = .ok change) :
    d.tree.CanMove fromParent fromIndex toParent toIndex node :=
  ⟨hnode, condition_of_perform hok
    (Tree.decides_insertChild (h.tree.wellFormed.unlink hnode) toParent toIndex node)⟩

end Moves

/-- A move is granted exactly if the child can be removed and then inserted at the new place, and
it does both at once: the same child, the same tree, and one announcement in place of two. -/
theorem moveChild_as_removeChild_insertChild {d : Document} (h : d.Reachable)
    (fromParent : NodeId) (fromIndex : Nat) (toParent : NodeId) (toIndex : Nat) :
    ((∃ change, (d.moveChild fromParent fromIndex toParent toIndex).1 = .ok change) ↔
      ∃ node, (d.removeChild fromParent fromIndex).1 = .ok (.removed fromParent fromIndex node) ∧
        ∃ change, ((d.removeChild fromParent fromIndex).2.insertChild toParent toIndex node).1 =
          .ok change) ∧
    ∀ change, (d.moveChild fromParent fromIndex toParent toIndex).1 = .ok change →
      ∃ node between final, change = .moved node fromParent fromIndex toParent toIndex ∧
        (d.moveChild fromParent fromIndex toParent toIndex).2 = d.changed final change ∧
        d.removeChild fromParent fromIndex = (.ok (.removed fromParent fromIndex node),
          d.changed between (.removed fromParent fromIndex node)) ∧
        (d.changed between (.removed fromParent fromIndex node)).insertChild toParent toIndex node =
          (.ok (.inserted toParent toIndex node),
            (d.changed between (.removed fromParent fromIndex node)).changed final
              (.inserted toParent toIndex node)) := by
  refine ⟨⟨?_, ?_⟩, ?_⟩
  · rintro ⟨change, hok⟩
    obtain ⟨node, can⟩ := canMove_of_moveChild h hok
    rw [removeChild_of_place h can.place]
    exact ⟨node, rfl, _, congrArg Prod.fst (insertChild_of_canMove h can _)⟩
  · rintro ⟨node, hremoved, change, hok⟩
    have hnode := place_of_removeChild h hremoved
    rw [removeChild_of_place h hnode] at hok
    have can := canMove_of_insertChild h hnode hok
    exact ⟨_, congrArg Prod.fst (moveChild_of_canMove h can)⟩
  · intro change hok
    obtain ⟨node, can⟩ := canMove_of_moveChild h hok
    rw [moveChild_of_canMove h can] at hok ⊢
    cases hok
    exact ⟨node, _, _, rfl, rfl, removeChild_of_place h can.place, insertChild_of_canMove h can _⟩

/-- A statement that moves out of a block to the place before it. -/
theorem move_out_of_block :
    ∃ d : Document, d.Reachable ∧
      (d.moveChild ⟨2, 0⟩ 0 ⟨1, 0⟩ 0).1 = .ok (.moved ⟨3, 0⟩ ⟨2, 0⟩ 0 ⟨1, 0⟩ 0) ∧
      ((d.removeChild ⟨2, 0⟩ 0).2.insertChild ⟨1, 0⟩ 0 ⟨3, 0⟩).2.tree =
        (d.moveChild ⟨2, 0⟩ 0 ⟨1, 0⟩ 0).2.tree := by
  have hreach : (((((((ofTree (.new none)).after (.operation (.create (.function "f" [] [])))).after
      (.operation (.create .block))).after (.operation (.create .breakStatement))).after
      (.operation (.appendChild ⟨0, 0⟩ ⟨1, 0⟩))).after
      (.operation (.appendChild ⟨1, 0⟩ ⟨2, 0⟩))).after
      (.operation (.appendChild ⟨2, 0⟩ ⟨3, 0⟩))).Reachable :=
    .after _ (.after _ (.after _ (.after _ (.after _ (.after _ (.new none))))))
  obtain ⟨_, hboth⟩ := moveChild_as_removeChild_insertChild hreach ⟨2, 0⟩ 0 ⟨1, 0⟩ 0
  obtain ⟨node, between, final, hchange, hmoved, hremoved, hinserted⟩ := hboth _ rfl
  cases hchange
  refine ⟨_, hreach, rfl, ?_⟩
  rw [hremoved, hinserted, hmoved]
  rfl

end ProgramTree.Document
