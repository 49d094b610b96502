import ProgramTree.Proofs.Undo
import ProgramTree.Proofs.Tree.Branches

/-! # How far an edit reaches

An edit writes to few nodes: it gives a new parent to those that it links or
unlinks, and a new child list or payload to those that it rewrites. The change
that it is announced with names all of them. What lies within a node is as it
was if nothing that was rewritten lies within it, be it before the edit or after
it, so views of other subtrees stay right. -/

namespace ProgramTree

set_option autoImplicit false

namespace Change

/-- The nodes that got another child list or another payload. -/
def rewritten : Change → List NodeId
  | inserted parent _ _ | removed parent _ _ | replaced parent _ _ _ => [parent]
  | moved _ fromParent _ toParent _ => [fromParent, toParent]
  | updated node => [node]

/-- The nodes that got another parent, or the same one anew. -/
def relinked : Change → List NodeId
  | inserted _ _ node | removed _ _ node => [node]
  | replaced _ _ old new => [old, new]
  | moved node _ _ _ _ => [node]
  | updated _ => []

theorem mem_affected_iff {change : Change} {id : NodeId} :
    id ∈ change.affected ↔ id ∈ change.rewritten ∨ id ∈ change.relinked := by
  cases change with
  | moved node fromParent fromIndex toParent toIndex =>
    simp only [affected, rewritten, relinked]
    split <;> simp_all [or_assoc]
  | _ => simp [affected, rewritten, relinked]

end Change

namespace Tree

/-- Between the trees only the relinked nodes can have another parent, only the rewritten ones
another child list or payload, and the same nodes are live. -/
structure TouchesOnly (t t' : Tree) (relinked rewritten : List NodeId) : Prop where
  live : ∀ id, t'.contains id = t.contains id
  parent : ∀ id, id ∉ relinked → t'.parent? id = t.parent? id
  payload : ∀ id, id ∉ rewritten → t'.payload? id = t.payload? id
  children : ∀ id, id ∉ rewritten → t'.children id = t.children id

namespace TouchesOnly

variable {t t' t'' : Tree} {relinked rewritten relinked' rewritten' : List NodeId}

theorem symm (h : t.TouchesOnly t' relinked rewritten) : t'.TouchesOnly t relinked rewritten where
  live := fun id => (h.live id).symm
  parent := fun id hid => (h.parent id hid).symm
  payload := fun id hid => (h.payload id hid).symm
  children := fun id hid => (h.children id hid).symm

theorem trans (h : t.TouchesOnly t' relinked rewritten)
    (h' : t'.TouchesOnly t'' relinked' rewritten') :
    t.TouchesOnly t'' (relinked ++ relinked') (rewritten ++ rewritten') where
  live := fun id => (h'.live id).trans (h.live id)
  parent := by
    intro id hid
    rw [List.mem_append, not_or] at hid
    rw [h'.parent id hid.2, h.parent id hid.1]
  payload := by
    intro id hid
    rw [List.mem_append, not_or] at hid
    rw [h'.payload id hid.2, h.payload id hid.1]
  children := by
    intro id hid
    rw [List.mem_append, not_or] at hid
    rw [h'.children id hid.2, h.children id hid.1]

theorem mono (h : t.TouchesOnly t' relinked rewritten) (hrelinked : relinked ⊆ relinked')
    (hrewritten : rewritten ⊆ rewritten') : t.TouchesOnly t' relinked' rewritten' where
  live := h.live
  parent := fun id hid => h.parent id fun hmem => hid (hrelinked hmem)
  payload := fun id hid => h.payload id fun hmem => hid (hrewritten hmem)
  children := fun id hid => h.children id fun hmem => hid (hrewritten hmem)

/-- A node within which nothing was rewritten has the branch that it had. -/
theorem branch?_eq (h : t.TouchesOnly t' relinked rewritten) (hwf : t.WellFormed)
    (hwf' : t'.WellFormed) {id : NodeId} (hout : ∀ other ∈ rewritten, ¬ t.Within other id) :
    t'.branch? id = t.branch? id := by
  by_cases hlive : t.contains id = true
  · obtain ⟨b, hb, rfl, held⟩ := hwf.exists_branch? hlive
    have hkept : ∀ inner ∈ b.ids, inner ∉ rewritten := fun inner hinner hmem =>
      hout inner hmem ((hwf.mem_ids_iff held inner).mp hinner)
    have held' : b.HeldBy t' := held.congr fun inner hinner =>
      ⟨h.payload inner (hkept inner hinner), h.children inner (hkept inner hinner)⟩
    rw [hwf'.branch?_of_heldBy held', hb]
  · have hdead : t.contains id = false := Bool.not_eq_true _ ▸ hlive
    rw [branch?_of_dead hdead, branch?_of_dead ((h.live id).trans hdead)]

end TouchesOnly

section Writes

variable {t : Tree} {parent node : NodeId}

theorem touchesOnly_link (hparent : t.contains parent = true) (hnode : t.contains node = true)
    (index : Nat) : t.TouchesOnly (t.link parent index node) [node] [parent] where
  live := contains_link index
  parent := by
    intro id hid
    rw [parent?_link index id hnode, if_neg (mt List.mem_singleton.mpr hid)]
  payload := fun id _ => payload?_link index id
  children := by
    intro id hid
    rw [children_link index id hparent, if_neg (mt List.mem_singleton.mpr hid)]

theorem touchesOnly_unlink (hparent : t.contains parent = true) (hnode : t.contains node = true)
    (index : Nat) : t.TouchesOnly (t.unlink parent index node) [node] [parent] where
  live := contains_unlink index
  parent := by
    intro id hid
    rw [parent?_unlink index id hnode, if_neg (mt List.mem_singleton.mpr hid)]
  payload := fun id _ => payload?_unlink index id
  children := by
    intro id hid
    rw [children_unlink index id hparent, if_neg (mt List.mem_singleton.mpr hid)]

theorem touchesOnly_setPayload (hnode : t.contains node = true) (payload : Payload) :
    t.TouchesOnly (t.setPayload node payload) [] [node] where
  live := fun id => contains_setPayload t node id payload
  parent := fun id _ => parent?_setPayload t node id payload
  payload := by
    intro id hid
    rw [payload?_setPayload id payload hnode, if_neg (mt List.mem_singleton.mpr hid)]
  children := fun id _ => children_setPayload t node id payload

/-- Unlinking a child and linking a node, the same one or another, touches both and the two
parents. -/
theorem touchesOnly_relink {fromParent toParent old : NodeId} {fromIndex toIndex : Nat}
    (hwf : t.WellFormed) (hplace : (t.children fromParent)[fromIndex]? = some old)
    (can : (t.unlink fromParent fromIndex old).CanInsert toParent toIndex node) :
    t.TouchesOnly ((t.unlink fromParent fromIndex old).link toParent toIndex node) [old, node]
      [fromParent, toParent] := by
  obtain ⟨hfrom, hold⟩ := hwf.live_of_children_getElem? hplace
  exact (touchesOnly_unlink hfrom hold fromIndex).trans
    (touchesOnly_link can.parent_live can.node_live toIndex)

end Writes

section Distinct

variable {t : Tree} {parent node old : NodeId} {index : Nat}

theorem CanInsert.ne (can : t.CanInsert parent index node) : parent ≠ node := by
  rintro rfl
  exact can.outside (.refl parent)

theorem WellFormed.ne_of_place (hwf : t.WellFormed)
    (hplace : (t.children parent)[index]? = some node) : parent ≠ node := by
  rintro rfl
  have hparent := hwf.parent_iff.mpr (List.mem_of_getElem? hplace)
  exact (hwf.grounded parent).parent_not_within hparent (.refl parent)

theorem CanReplace.ne (hwf : t.WellFormed) (can : t.CanReplace parent index old node) :
    old ≠ node := by
  rintro rfl
  have hparent := hwf.parent_iff.mpr (List.mem_of_getElem? can.place)
  rw [can.free] at hparent
  cases hparent

end Distinct

end Tree

namespace Document

/-- The change was announced and names all that it touched: each node once and only live ones. No
node was created or freed, and a node keeps its snapshot unless something that was rewritten lies
within it, both before and after. -/
structure Confined (d : Document) (change : Change) (d' : Document) : Prop where
  announced : d' = d.changed d'.tree change
  kept : ∀ id, id ∉ change.affected → d'.tree.payload? id = d.tree.payload? id ∧
    d'.tree.parent? id = d.tree.parent? id ∧ d'.tree.children id = d.tree.children id
  nodup : change.affected.Nodup
  affected_live : ∀ id ∈ change.affected, d.tree.contains id = true
  live : ∀ id, d'.tree.contains id = d.tree.contains id
  snapshot : ∀ id, (∀ other ∈ change.rewritten, d.tree.isWithin other id = false) ∨
      (∀ other ∈ change.rewritten, d'.tree.isWithin other id = false) →
    d'.tree.snapshot? id = d.tree.snapshot? id

section Confined

variable {d : Document} {t' : Tree} {change : Change}

theorem confined_of_touchesOnly (hwf : d.tree.WellFormed) (hwf' : t'.WellFormed)
    (h : d.tree.TouchesOnly t' change.relinked change.rewritten) (hnodup : change.affected.Nodup)
    (hlive : ∀ id ∈ change.affected, d.tree.contains id = true) :
    d.Confined change (d.changed t' change) where
  announced := rfl
  kept := by
    intro id hid
    rw [Change.mem_affected_iff, not_or] at hid
    exact ⟨h.payload id hid.1, h.parent id hid.2, h.children id hid.1⟩
  nodup := hnodup
  affected_live := hlive
  live := h.live
  snapshot := by
    have hout : ∀ {t : Tree} {id : NodeId}, t.WellFormed →
        (∀ other ∈ change.rewritten, t.isWithin other id = false) →
        ∀ other ∈ change.rewritten, ¬ t.Within other id := by
      intro t id hwf hall other hmem
      rw [← Tree.isWithin_iff hwf, hall other hmem]
      exact Bool.false_ne_true
    rintro id (hbefore | hafter)
    · exact congrArg (Option.map Branch.snapshot) (h.branch?_eq hwf hwf' (hout hwf hbefore))
    · exact congrArg (Option.map Branch.snapshot)
        (h.symm.branch?_eq hwf' hwf (hout hwf' hafter)).symm

theorem confined_insert (hwf : d.tree.WellFormed) {parent node : NodeId} {index : Nat}
    (can : d.tree.CanInsert parent index node) :
    d.Confined (.inserted parent index node)
      (d.changed (d.tree.link parent index node) (.inserted parent index node)) := by
  refine confined_of_touchesOnly hwf (hwf.insert can)
    (Tree.touchesOnly_link can.parent_live can.node_live index) ?_ ?_
  · simp [Change.affected, can.ne]
  · simp [Change.affected, can.parent_live, can.node_live]

theorem confined_remove (hwf : d.tree.WellFormed) {parent node : NodeId} {index : Nat}
    (hplace : (d.tree.children parent)[index]? = some node) :
    d.Confined (.removed parent index node)
      (d.changed (d.tree.unlink parent index node) (.removed parent index node)) := by
  obtain ⟨hparent, hnode⟩ := hwf.live_of_children_getElem? hplace
  refine confined_of_touchesOnly hwf (hwf.unlink hplace)
    (Tree.touchesOnly_unlink hparent hnode index) ?_ ?_
  · simp [Change.affected, hwf.ne_of_place hplace]
  · simp [Change.affected, hparent, hnode]

theorem confined_replace (hwf : d.tree.WellFormed) {parent old node : NodeId} {index : Nat}
    (can : d.tree.CanReplace parent index old node) :
    d.Confined (.replaced parent index old node)
      (d.changed ((d.tree.unlink parent index old).link parent index node)
        (.replaced parent index old node)) := by
  obtain ⟨hparent, hold⟩ := hwf.live_of_children_getElem? can.place
  have hnode : d.tree.contains node = true := by
    simpa using can.insert.node_live
  refine confined_of_touchesOnly hwf (hwf.replace can)
    ((Tree.touchesOnly_relink hwf can.place can.insert).mono (List.Subset.refl _) ?_) ?_ ?_
  · simp [Change.rewritten]
  · simp [Change.affected, hwf.ne_of_place can.place, can.insert.ne, can.ne hwf]
  · simp [Change.affected, hparent, hold, hnode]

theorem confined_move (hwf : d.tree.WellFormed) {fromParent toParent node : NodeId}
    {fromIndex toIndex : Nat}
    (can : d.tree.CanMove fromParent fromIndex toParent toIndex node) :
    d.Confined (.moved node fromParent fromIndex toParent toIndex)
      (d.changed ((d.tree.unlink fromParent fromIndex node).link toParent toIndex node)
        (.moved node fromParent fromIndex toParent toIndex)) := by
  obtain ⟨hfrom, hnode⟩ := hwf.live_of_children_getElem? can.place
  have hto : d.tree.contains toParent = true := by
    simpa using can.insert.parent_live
  refine confined_of_touchesOnly hwf (hwf.move can)
    ((Tree.touchesOnly_relink hwf can.place can.insert).mono ?_ (List.Subset.refl _)) ?_ ?_
  · simp [Change.relinked]
  · -- within one child list the parent is named once
    rw [Change.affected]
    split
    · simp [hwf.ne_of_place can.place]
    · rename_i hne
      simp [hne, hwf.ne_of_place can.place, can.insert.ne]
  · intro id hid
    rw [Change.mem_affected_iff] at hid
    simp only [Change.rewritten, Change.relinked, List.mem_cons, List.not_mem_nil, or_false] at hid
    rcases hid with (rfl | rfl) | rfl
    · exact hfrom
    · exact hto
    · exact hnode

theorem confined_update (hwf : d.tree.WellFormed) {node : NodeId} {payload : Payload}
    (hkind : d.tree.kind? node = some payload.kind) :
    d.Confined (.updated node) (d.changed (d.tree.setPayload node payload) (.updated node)) := by
  have hnode := Tree.contains_of_kind? hkind
  refine confined_of_touchesOnly hwf (hwf.setPayload hkind)
    (Tree.touchesOnly_setPayload hnode payload) ?_ ?_
  · exact List.nodup_singleton node
  · simpa [Change.affected] using hnode

end Confined

/-- Every edit touches only what the change that it is announced with names. -/
theorem request_confined {d d' : Document} {r : Request} {done : Done} (h : d.Reachable)
    (hdone : d.request r = (.ok done, d')) : d.Confined done.change d' := by
  have hwf := h.tree.wellFormed
  cases r with
  | insertChild parent index node =>
    obtain ⟨can, rfl, rfl⟩ := granted (Tree.decides_insertChild hwf parent index node) hdone
    exact confined_insert hwf can
  | appendChild parent node =>
    obtain ⟨can, rfl, rfl⟩ := granted (Tree.decides_appendChild hwf parent node) hdone
    exact confined_insert hwf can
  | removeChild parent index =>
    obtain ⟨node, hplace⟩ := d.tree.exists_place parent index
    obtain ⟨hnode, rfl, rfl⟩ :=
      granted (Tree.decides_removeChild hwf parent index node hplace) hdone
    exact confined_remove hwf hnode
  | replaceChild parent index node =>
    obtain ⟨old, hplace⟩ := d.tree.exists_place parent index
    obtain ⟨can, rfl, rfl⟩ :=
      granted (Tree.decides_replaceChild hwf parent index old node hplace) hdone
    exact confined_replace hwf can
  | moveChild fromParent fromIndex toParent toIndex =>
    obtain ⟨node, hplace⟩ := d.tree.exists_place fromParent fromIndex
    obtain ⟨can, rfl, rfl⟩ := granted
      (Tree.decides_moveChild hwf fromParent fromIndex toParent toIndex node hplace) hdone
    exact confined_move hwf can
  | update node payload =>
    cases hold : d.tree.payload? node with
    | some old =>
      obtain ⟨hkind, rfl, rfl⟩ := granted (Tree.decides_update node old payload (Or.inl hold)) hdone
      exact confined_update hwf hkind
    | none =>
      obtain ⟨hkind, _, _⟩ :=
        granted (Tree.decides_update node payload payload (Or.inr hold)) hdone
      simp [Tree.kind?, hold] at hkind

/-- A statement that moves from one function of a unit to another one; a third function keeps its
snapshot. -/
theorem moved_statement_confined :
    ∃ d d' : Document, d.Reachable ∧
      d.request (.moveChild ⟨1, 0⟩ 0 ⟨2, 0⟩ 0) =
        (.ok ⟨.moved ⟨4, 0⟩ ⟨1, 0⟩ 0 ⟨2, 0⟩ 0, none⟩, d') ∧
      d.Confined (.moved ⟨4, 0⟩ ⟨1, 0⟩ 0 ⟨2, 0⟩ 0) d' ∧
      d'.tree.snapshot? ⟨3, 0⟩ = d.tree.snapshot? ⟨3, 0⟩ := by
  have hreach := (Reachable.new none).run (List.map .operation
    [.create (.function "f" [] []), .create (.function "g" [] []), .create (.function "h" [] []),
      .create .breakStatement, .appendChild ⟨0, 0⟩ ⟨1, 0⟩, .appendChild ⟨0, 0⟩ ⟨2, 0⟩,
      .appendChild ⟨1, 0⟩ ⟨4, 0⟩])
  have hconfined := request_confined (r := .moveChild ⟨1, 0⟩ 0 ⟨2, 0⟩ 0) hreach rfl
  exact ⟨_, _, hreach, rfl, hconfined, hconfined.snapshot ⟨3, 0⟩ (Or.inl (by decide))⟩

end Document
end ProgramTree
