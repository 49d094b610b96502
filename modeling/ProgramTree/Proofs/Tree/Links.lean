import ProgramTree.Proofs.Tree.Invariant

/-! # Linking and unlinking

All edits of the shape of a tree come down to two moves: a child is unlinked
from its parent, and a node without a parent is linked under one. Both keep a
tree well formed. Unlinking needs no check, since what is left of an admissible
child list is admissible. -/

namespace ProgramTree.Tree

set_option autoImplicit false

/-- Puts a node at a place of a child list. -/
def link (t : Tree) (parent : NodeId) (index : Nat) (node : NodeId) : Tree :=
  (t.mapChildren parent (·.insertIdx index node)).setParent node (some parent)

/-- Takes the node at a place out of a child list. -/
def unlink (t : Tree) (parent : NodeId) (index : Nat) (node : NodeId) : Tree :=
  (t.mapChildren parent (·.eraseIdx index)).setParent node none

section Lists

variable {α β : Type}

theorem mem_eraseIdx_of_nodup {l : List α} (hnodup : l.Nodup) {index : Nat} {a b : α}
    (ha : l[index]? = some a) : b ∈ l.eraseIdx index ↔ b ∈ l ∧ b ≠ a := by
  obtain ⟨hlt, hget⟩ := List.getElem?_eq_some_iff.mp ha
  rw [List.mem_eraseIdx_iff_getElem?]
  constructor
  · rintro ⟨i, hne, hi⟩
    refine ⟨List.mem_of_getElem? hi, ?_⟩
    rintro rfl
    obtain ⟨hi', hget'⟩ := List.getElem?_eq_some_iff.mp hi
    exact hne (hnodup.getElem_inj_iff.mp (hget'.trans hget.symm))
  · rintro ⟨hb, hne⟩
    obtain ⟨i, hi⟩ := List.mem_iff_getElem?.mp hb
    refine ⟨i, ?_, hi⟩
    rintro rfl
    rw [ha] at hi
    exact hne (Option.some.inj hi).symm

theorem filterMap_insertIdx {f : α → Option β} {l : List α} (hall : ∀ a ∈ l, (f a).isSome)
    {a : α} {b : β} (ha : f a = some b) (index : Nat) :
    (l.insertIdx index a).filterMap f = (l.filterMap f).insertIdx index b := by
  induction index generalizing l with
  | zero => simp [ha]
  | succ index ih =>
    cases l with
    | nil => simp
    | cons c l =>
      obtain ⟨d, hd⟩ := Option.isSome_iff_exists.mp (hall c List.mem_cons_self)
      simp [hd, ih fun x hx => hall x (List.mem_cons_of_mem c hx)]

theorem filterMap_eraseIdx {f : α → Option β} {l : List α} (hall : ∀ a ∈ l, (f a).isSome)
    (index : Nat) : (l.eraseIdx index).filterMap f = (l.filterMap f).eraseIdx index := by
  induction index generalizing l with
  | zero =>
    cases l with
    | nil => rfl
    | cons c l =>
      obtain ⟨d, hd⟩ := Option.isSome_iff_exists.mp (hall c List.mem_cons_self)
      simp [hd]
  | succ index ih =>
    cases l with
    | nil => rfl
    | cons c l =>
      obtain ⟨d, hd⟩ := Option.isSome_iff_exists.mp (hall c List.mem_cons_self)
      simp [hd, ih fun x hx => hall x (List.mem_cons_of_mem c hx)]

end Lists

section Views

variable {t : Tree} {parent node : NodeId} (index : Nat) (other : NodeId)

@[simp] theorem root_link : (t.link parent index node).root = t.root := rfl

@[simp] theorem contains_link : (t.link parent index node).contains other = t.contains other := by
  simp [link]

@[simp] theorem payload?_link : (t.link parent index node).payload? other = t.payload? other := by
  simp [link]

@[simp] theorem kind?_link : (t.link parent index node).kind? other = t.kind? other := by
  simp [link]

theorem parent?_link (h : t.contains node = true) :
    (t.link parent index node).parent? other =
      if other = node then some parent else t.parent? other := by
  rw [link, parent?_setParent _ _ (by simpa using h), parent?_mapChildren]

theorem children_link (h : t.contains parent = true) :
    (t.link parent index node).children other =
      if other = parent then (t.children parent).insertIdx index node else t.children other := by
  rw [link, children_setParent, children_mapChildren _ _ h]

@[simp] theorem root_unlink : (t.unlink parent index node).root = t.root := rfl

@[simp] theorem contains_unlink :
    (t.unlink parent index node).contains other = t.contains other := by
  simp [unlink]

@[simp] theorem payload?_unlink :
    (t.unlink parent index node).payload? other = t.payload? other := by
  simp [unlink]

@[simp] theorem kind?_unlink : (t.unlink parent index node).kind? other = t.kind? other := by
  simp [unlink]

theorem parent?_unlink (h : t.contains node = true) :
    (t.unlink parent index node).parent? other =
      if other = node then none else t.parent? other := by
  rw [unlink, parent?_setParent _ _ (by simpa using h), parent?_mapChildren]

theorem children_unlink (h : t.contains parent = true) :
    (t.unlink parent index node).children other =
      if other = parent then (t.children parent).eraseIdx index else t.children other := by
  rw [unlink, children_setParent, children_mapChildren _ _ h]

end Views

theorem mem_children_link {t : Tree} {parent node : NodeId} {index : Nat}
    (hparent : t.contains parent = true) (hindex : index ≤ (t.children parent).length)
    (child above : NodeId) :
    child ∈ (t.link parent index node).children above ↔
      child ∈ t.children above ∨ child = node ∧ above = parent := by
  rw [children_link _ _ hparent]
  split
  · rename_i he
    subst he
    rw [List.mem_insertIdx hindex, or_comm]
    simp
  · rename_i hne
    simp [hne]

theorem sound_modifyNode {t : Tree} (h : t.nodes.Sound) (id : NodeId) (f : Node → Node) :
    (t.modifyNode id f).nodes.Sound :=
  t.nodes.sound_modify h id f

/-- Fewer parent links do not keep a walk from ending. -/
theorem Grounded.mono {t t' : Tree}
    (hsub : ∀ id parent, t'.parent? id = some parent → t.parent? id = some parent)
    {id : NodeId} (h : t.Grounded id) : t'.Grounded id := by
  induction h with
  | @top id hnone =>
    cases hparent : t'.parent? id with
    | none => exact .top hparent
    | some parent => rw [hsub id parent hparent] at hnone; cases hnone
  | @step id parent hsome _ ih =>
    cases hparent : t'.parent? id with
    | none => exact .top hparent
    | some above =>
      rw [hsub id above hparent] at hsome
      cases hsome
      exact .step hparent ih

/-- Fewer parent links lead to fewer nodes. -/
theorem Within.mono {t t' : Tree}
    (hsub : ∀ id parent, t'.parent? id = some parent → t.parent? id = some parent)
    {id top : NodeId} (h : t'.Within id top) : t.Within id top := by
  induction h with
  | refl => exact .refl _
  | step hparent _ ih => exact .step (hsub _ _ hparent) ih

namespace WellFormed

variable {t : Tree} (h : t.WellFormed)
include h

theorem kind?_child_isSome (parent : NodeId) :
    ∀ child ∈ t.children parent, (t.kind? child).isSome := by
  intro child hchild
  obtain ⟨kind, hkind⟩ := exists_kind? (h.child_live hchild)
  simp [hkind]

section Unlink

variable {parent node : NodeId} {index : Nat} (hnode : (t.children parent)[index]? = some node)
include hnode

theorem live_of_children_getElem? : t.contains parent = true ∧ t.contains node = true :=
  ⟨contains_of_mem_children (List.mem_of_getElem? hnode),
    h.child_live (List.mem_of_getElem? hnode)⟩

/-- Unlinking takes one parent link away. -/
theorem parent?_of_parent?_unlink (id above : NodeId)
    (habove : (t.unlink parent index node).parent? id = some above) :
    t.parent? id = some above := by
  rw [parent?_unlink _ _ (h.live_of_children_getElem? hnode).2] at habove
  split at habove
  · cases habove
  · exact habove

theorem mem_children_unlink (child above : NodeId) :
    child ∈ (t.unlink parent index node).children above ↔
      child ∈ t.children above ∧ child ≠ node := by
  rw [children_unlink _ _ (h.live_of_children_getElem? hnode).1]
  split
  · rename_i he
    subst he
    exact mem_eraseIdx_of_nodup (h.children_nodup above) hnode
  · rename_i hne
    refine ⟨fun hchild => ⟨hchild, ?_⟩, And.left⟩
    rintro rfl
    have habove := h.parent_iff.mpr hchild
    rw [h.parent_iff.mpr (List.mem_of_getElem? hnode)] at habove
    exact hne (Option.some.inj habove).symm

theorem unlink : (t.unlink parent index node).WellFormed where
  sound := sound_modifyNode (sound_modifyNode h.sound _ _) _ _
  root_live := by simpa using h.root_live
  root_top := by
    rw [parent?_unlink _ _ (h.live_of_children_getElem? hnode).2, root_unlink, h.root_top, ite_self]
  child_live := by
    intro child above hchild
    rw [contains_unlink]
    exact h.child_live ((h.mem_children_unlink hnode child above).mp hchild).1
  parent_iff := by
    intro child above
    rw [h.mem_children_unlink hnode, parent?_unlink _ _ (h.live_of_children_getElem? hnode).2,
      ← h.parent_iff]
    by_cases hc : child = node
    · simp [hc]
    · simp [hc]
  children_nodup := by
    intro above
    rw [children_unlink _ _ (h.live_of_children_getElem? hnode).1]
    split
    · exact (h.children_nodup parent).eraseIdx index
    · exact h.children_nodup above
  grounded := fun id => (h.grounded id).mono (h.parent?_of_parent?_unlink hnode)
  layout := by
    intro above kind hkind
    rw [kind?_unlink] at hkind
    have hkinds : (t.unlink parent index node).kindsOf = t.kindsOf := by
      funext ids
      simp [kindsOf]
    rw [hkinds, children_unlink _ _ (h.live_of_children_getElem? hnode).1]
    split
    · rename_i he
      subst he
      exact Layout.check_sublist (h.layout hkind)
        ((List.eraseIdx_sublist _ _).filterMap _)
    · exact h.layout hkind

end Unlink

/-- Above the new parent nothing changes when the new child does not lie there. -/
theorem grounded_link {parent node : NodeId} (index : Nat) (hnode : t.contains node = true)
    (hout : ¬ t.Within parent node) (id : NodeId) : (t.link parent index node).Grounded id := by
  have hlink : ∀ other, (t.link parent index node).parent? other =
      if other = node then some parent else t.parent? other :=
    fun other => parent?_link index other hnode
  have houtside : ∀ id, t.Grounded id → ¬ t.Within id node →
      (t.link parent index node).Grounded id := by
    intro id hg
    induction hg with
    | @top id hnone =>
      intro hw
      have hne : id ≠ node := fun he => hw (within_iff.mpr (Or.inl he))
      exact .top (by rw [hlink, if_neg hne, hnone])
    | @step id above hsome _ ih =>
      intro hw
      have hne : id ≠ node := fun he => hw (within_iff.mpr (Or.inl he))
      have habove := ih fun habove => hw (.step hsome habove)
      exact .step (by rw [hlink, if_neg hne, hsome]) habove
  have hself : (t.link parent index node).Grounded node := by
    have habove := houtside parent (h.grounded parent) hout
    exact .step (by rw [hlink, if_pos rfl]) habove
  have hg := h.grounded id
  induction hg with
  | @top id hnone =>
    by_cases he : id = node
    · exact he ▸ hself
    · exact .top (by rw [hlink, if_neg he, hnone])
  | @step id above hsome _ ih =>
    by_cases he : id = node
    · exact he ▸ hself
    · exact .step (by rw [hlink, if_neg he, hsome]) ih

theorem link {parent node : NodeId} {index : Nat} (hparent : t.contains parent = true)
    (hnode : t.contains node = true) (htop : t.parent? node = none)
    (hindex : index ≤ (t.children parent).length) (hroot : node ≠ t.root)
    (hout : ¬ t.Within parent node)
    (hlayout : ∀ kind childKind, t.kind? parent = some kind → t.kind? node = some childKind →
      Layout.check kind ((t.kindsOf (t.children parent)).insertIdx index childKind) = .ok ()) :
    (t.link parent index node).WellFormed where
  sound := sound_modifyNode (sound_modifyNode h.sound _ _) _ _
  root_live := by simpa using h.root_live
  root_top := by
    rw [parent?_link _ _ hnode, root_link, if_neg (Ne.symm hroot)]
    exact h.root_top
  child_live := by
    intro child above hchild
    rw [contains_link]
    rcases (mem_children_link hparent hindex child above).mp hchild with
      hchild | ⟨rfl, rfl⟩
    · exact h.child_live hchild
    · exact hnode
  parent_iff := by
    intro child above
    rw [mem_children_link hparent hindex, parent?_link _ _ hnode, ← h.parent_iff]
    by_cases hc : child = node
    · subst hc
      simp [htop, eq_comm]
    · simp [hc]
  children_nodup := by
    intro above
    rw [children_link _ _ hparent]
    split
    · refine (List.perm_insertIdx node _ hindex).nodup_iff.mpr (List.nodup_cons.mpr ⟨?_, ?_⟩)
      · intro hmem
        rw [h.parent_iff.mpr hmem] at htop
        cases htop
      · exact h.children_nodup parent
    · exact h.children_nodup above
  grounded := h.grounded_link index hnode hout
  layout := by
    intro above kind hkind
    rw [kind?_link] at hkind
    have hkinds : (t.link parent index node).kindsOf = t.kindsOf := by
      funext ids
      simp [kindsOf]
    rw [hkinds, children_link _ _ hparent]
    split
    · rename_i he
      subst he
      obtain ⟨childKind, hchild⟩ := exists_kind? hnode
      have hall := h.kind?_child_isSome above
      rw [kindsOf, filterMap_insertIdx hall hchild]
      exact hlayout kind childKind hkind hchild
    · exact h.layout hkind

end WellFormed

end ProgramTree.Tree
