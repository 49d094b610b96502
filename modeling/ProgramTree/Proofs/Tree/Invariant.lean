import ProgramTree.Tree.Navigation
import ProgramTree.Proofs.Layout
import ProgramTree.Proofs.Tree.Views

/-! # Well-formed trees

In a well-formed tree the links agree both ways, no node lies beneath itself,
and every child list has an admissible layout. This holds of detached subtrees
as it holds beneath the root.

An upward walk is bounded by the number of nodes. In a well-formed tree the
bound never cuts a walk off, so what a bounded walk finds is what following the
parent links finds. -/

namespace ProgramTree.Tree

set_option autoImplicit false

/-- Following the parent links ends. -/
inductive Grounded (t : Tree) : NodeId → Prop
  | top {id : NodeId} : t.parent? id = none → t.Grounded id
  | step {id parent : NodeId} : t.parent? id = some parent → t.Grounded parent → t.Grounded id

/-- Following the parent links from the first node leads to the second one. -/
inductive Within (t : Tree) : NodeId → NodeId → Prop
  | refl (id : NodeId) : t.Within id id
  | step {id parent top : NodeId} :
      t.parent? id = some parent → t.Within parent top → t.Within id top

def kindsOf (t : Tree) (ids : List NodeId) : List NodeKind :=
  ids.filterMap t.kind?

theorem map_kind?_eq {t : Tree} {ids : List NodeId} (h : ∀ id ∈ ids, (t.kind? id).isSome) :
    ids.map t.kind? = (t.kindsOf ids).map some := by
  unfold kindsOf
  induction ids with
  | nil => rfl
  | cons id ids ih =>
    obtain ⟨kind, hkind⟩ := Option.isSome_iff_exists.mp (h id List.mem_cons_self)
    simp [hkind, ih fun child hchild => h child (List.mem_cons_of_mem id hchild)]

structure WellFormed (t : Tree) : Prop where
  sound : t.nodes.Sound
  root_live : t.contains t.root = true
  root_top : t.parent? t.root = none
  child_live : ∀ {child parent}, child ∈ t.children parent → t.contains child = true
  parent_iff : ∀ {child parent}, t.parent? child = some parent ↔ child ∈ t.children parent
  children_nodup : ∀ parent, (t.children parent).Nodup
  grounded : ∀ id, t.Grounded id
  layout : ∀ {parent kind}, t.kind? parent = some kind →
    Layout.check kind (t.kindsOf (t.children parent)) = .ok ()

section Within

variable {t : Tree} {id top other : NodeId}

theorem Within.trans (h : t.Within id other) (h' : t.Within other top) : t.Within id top := by
  induction h with
  | refl => exact h'
  | step hparent _ ih => exact .step hparent (ih h')

theorem Within.single {parent : NodeId} (h : t.parent? id = some parent) : t.Within id parent :=
  .step h (.refl parent)

theorem within_iff : t.Within id top ↔ id = top ∨ ∃ parent, t.parent? id = some parent ∧
    t.Within parent top := by
  constructor
  · intro h
    cases h with
    | refl => exact Or.inl rfl
    | step hparent h => exact Or.inr ⟨_, hparent, h⟩
  · rintro (rfl | ⟨parent, hparent, h⟩)
    · exact .refl id
    · exact .step hparent h

theorem within_of_parent?_eq_none (h : t.parent? id = none) (hw : t.Within id top) : id = top := by
  cases hw with
  | refl => rfl
  | step hparent _ => rw [h] at hparent; cases hparent

/-- Two nodes that a node lies within lie within one another. -/
theorem Within.comparable (h : t.Within id top) (h' : t.Within id other) :
    t.Within top other ∨ t.Within other top := by
  induction h with
  | refl => exact Or.inl h'
  | @step id parent top hparent h ih =>
    cases h' with
    | refl => exact Or.inr (.step hparent h)
    | step hparent' h' =>
      rw [hparent] at hparent'
      cases hparent'
      exact ih h'

theorem Grounded.parent_not_within (h : t.Grounded id) {parent : NodeId}
    (hparent : t.parent? id = some parent) : ¬ t.Within parent id := by
  induction h generalizing parent with
  | top hnone => rw [hparent] at hnone; cases hnone
  | @step id above hsome _ ih =>
    rw [hparent] at hsome
    cases hsome
    intro hw
    rcases within_iff.mp hw with rfl | ⟨next, hnext, hw⟩
    · exact ih hparent (.refl _)
    · exact ih hnext (hw.trans (.single hparent))

theorem Within.antisymm (hg : t.Grounded id) (h : t.Within id top) (h' : t.Within top id) :
    id = top := by
  rcases within_iff.mp h with rfl | ⟨parent, hparent, h⟩
  · rfl
  · exact absurd (h.trans h') (hg.parent_not_within hparent)

end Within

section Ancestors

variable {t : Tree}

theorem within_of_mem_ancestorsUpTo {steps : Nat} {id top : NodeId}
    (h : top ∈ t.ancestorsUpTo steps id) :
    ∃ parent, t.parent? id = some parent ∧ t.Within parent top := by
  induction steps generalizing id with
  | zero => simp [ancestorsUpTo] at h
  | succ steps ih =>
    simp only [ancestorsUpTo] at h
    cases hparent : t.parent? id with
    | none => simp [hparent] at h
    | some parent =>
      refine ⟨parent, rfl, ?_⟩
      simp only [hparent, List.mem_cons] at h
      rcases h with rfl | h
      · exact .refl _
      · obtain ⟨next, hnext, hw⟩ := ih h
        exact .step hnext hw

theorem contains_of_mem_ancestorsUpTo (hwf : t.WellFormed) {steps : Nat} {id top : NodeId}
    (h : top ∈ t.ancestorsUpTo steps id) : t.contains top = true := by
  induction steps generalizing id with
  | zero => simp [ancestorsUpTo] at h
  | succ steps ih =>
    simp only [ancestorsUpTo] at h
    cases hparent : t.parent? id with
    | none => simp [hparent] at h
    | some parent =>
      simp only [hparent, List.mem_cons] at h
      rcases h with rfl | h
      · exact contains_of_mem_children (hwf.parent_iff.mp hparent)
      · exact ih h

theorem nodup_cons_ancestorsUpTo (hwf : t.WellFormed) (steps : Nat) (id : NodeId) :
    (id :: t.ancestorsUpTo steps id).Nodup := by
  induction steps generalizing id with
  | zero => simp [ancestorsUpTo]
  | succ steps ih =>
    simp only [ancestorsUpTo]
    cases hparent : t.parent? id with
    | none => simp
    | some parent =>
      refine List.nodup_cons.mpr ⟨?_, ih parent⟩
      intro hmem
      apply (hwf.grounded id).parent_not_within hparent
      rcases List.mem_cons.mp hmem with rfl | hmem
      · exact .refl _
      · obtain ⟨next, hnext, hw⟩ := within_of_mem_ancestorsUpTo hmem
        exact .step hnext hw

/-- A walk that stops before its bound has found every ancestor. -/
theorem mem_ancestorsUpTo_of_within {steps : Nat} {id top : NodeId}
    (hlength : (t.ancestorsUpTo steps id).length < steps) (h : t.Within id top) :
    id = top ∨ top ∈ t.ancestorsUpTo steps id := by
  induction steps generalizing id with
  | zero => exact absurd hlength (Nat.not_lt_zero _)
  | succ steps ih =>
    rcases within_iff.mp h with rfl | ⟨parent, hparent, h⟩
    · exact Or.inl rfl
    · simp only [ancestorsUpTo, hparent, List.length_cons, List.mem_cons] at hlength ⊢
      rcases ih (by omega) h with rfl | hmem
      · exact Or.inr (Or.inl rfl)
      · exact Or.inr (Or.inr hmem)

theorem length_ancestors_lt (hwf : t.WellFormed) {id : NodeId} (hlive : t.contains id = true) :
    (t.ancestors id).length < t.size := by
  have hle := length_le_size t (nodup_cons_ancestorsUpTo hwf t.size id) (by
    intro other hother
    rcases List.mem_cons.mp hother with rfl | hother
    · exact hlive
    · exact contains_of_mem_ancestorsUpTo hwf hother)
  exact hle

/-- The proper ancestors are what lies strictly above. -/
theorem mem_ancestors_iff (hwf : t.WellFormed) (id top : NodeId) :
    top ∈ t.ancestors id ↔ ∃ parent, t.parent? id = some parent ∧ t.Within parent top := by
  constructor
  · exact within_of_mem_ancestorsUpTo
  · rintro ⟨parent, hparent, h⟩
    have hlive := contains_of_parent? hparent
    rcases mem_ancestorsUpTo_of_within (length_ancestors_lt hwf hlive) (.step hparent h) with
      rfl | hmem
    · exact absurd h ((hwf.grounded id).parent_not_within hparent)
    · exact hmem

theorem isWithin_iff (hwf : t.WellFormed) (id top : NodeId) :
    t.isWithin id top = true ↔ t.Within id top := by
  rw [isWithin, Bool.or_eq_true, beq_iff_eq, List.contains_iff_mem, mem_ancestors_iff hwf,
    within_iff]

end Ancestors

namespace WellFormed

variable {t : Tree} (h : t.WellFormed)
include h

theorem parent_live {child parent : NodeId} (hparent : t.parent? child = some parent) :
    t.contains parent = true :=
  contains_of_mem_children (h.parent_iff.mp hparent)

theorem kindsOf_children {parent : NodeId} :
    (t.children parent).map t.kind? = (t.kindsOf (t.children parent)).map some := by
  refine map_kind?_eq fun child hchild => ?_
  obtain ⟨kind, hkind⟩ := exists_kind? (h.child_live hchild)
  simp [hkind]

theorem length_kindsOf_children {parent : NodeId} :
    (t.kindsOf (t.children parent)).length = (t.children parent).length := by
  simpa using (congrArg List.length h.kindsOf_children).symm

end WellFormed

end ProgramTree.Tree
