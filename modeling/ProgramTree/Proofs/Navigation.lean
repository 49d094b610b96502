import Mathlib.Data.List.Induction
import Mathlib.Logic.Function.Iterate
import ProgramTree.Proofs.Tree.Paths
import ProgramTree.Proofs.Tree.Detached
import ProgramTree.Proofs.Walk.Course

/-! # Ways through a tree agree

Going up follows the parent links, going sideways looks the node up in the child
list of its parent, and going down follows the child lists. In a well-formed
tree the three are about the same order: a node lies within another one if there
is a way down to it, which is then the only one and as long as the difference of
the depths, and if a preorder walk over the other one shows it. -/

namespace ProgramTree

set_option autoImplicit false

namespace Tree

/-- The node at the end of a way down, given by the places in the child lists on it. -/
def follow? (t : Tree) (id : NodeId) : List Nat → Option NodeId
  | [] => some id
  | index :: way => (t.child? id index).bind (t.follow? · way)

variable {t : Tree}

section Sideways

variable (h : t.WellFormed) {id parent : NodeId} {index : Nat}
include h

theorem WellFormed.parent?_of_child? (hchild : t.child? parent index = some id) :
    t.parent? id = some parent :=
  h.parent_iff.mpr (List.mem_of_getElem? hchild)

theorem WellFormed.indexInParent?_of_child? (hchild : t.child? parent index = some id) :
    t.indexInParent? id = some index := by
  rw [indexInParent?, h.parent?_of_child? hchild, Option.bind_some, List.idxOf?_eq_some_iff]
  obtain ⟨hlt, hplace⟩ := List.getElem?_eq_some_iff.mp hchild
  refine ⟨hlt, hplace, fun earlier hearlier heq => ?_⟩
  have hsame := (h.children_nodup parent).getElem_inj_iff.mp (heq.trans hplace.symm)
  omega

theorem WellFormed.exists_child? (hparent : t.parent? id = some parent) :
    ∃ index, t.child? parent index = some id :=
  List.mem_iff_getElem?.mp (h.parent_iff.mp hparent)

theorem WellFormed.nextSibling?_of_child? (hchild : t.child? parent index = some id) :
    t.nextSibling? id = t.child? parent (index + 1) := by
  simp only [nextSibling?, h.indexInParent?_of_child? hchild, h.parent?_of_child? hchild]
  rfl

theorem WellFormed.previousSibling?_of_child? (hchild : t.child? parent (index + 1) = some id) :
    t.previousSibling? id = t.child? parent index := by
  simp only [previousSibling?, h.indexInParent?_of_child? hchild, h.parent?_of_child? hchild]
  rfl

theorem WellFormed.previousSibling?_of_first (hchild : t.child? parent 0 = some id) :
    t.previousSibling? id = none := by
  simp only [previousSibling?, h.indexInParent?_of_child? hchild]
  rfl

/-- The next sibling has the next place in the same child list. -/
theorem WellFormed.nextSibling?_eq_some_iff {next : NodeId} :
    t.nextSibling? id = some next ↔ ∃ parent index,
      t.child? parent index = some id ∧ t.child? parent (index + 1) = some next := by
  constructor
  · intro hnext
    cases hparent : t.parent? id with
    | none => simp [nextSibling?, indexInParent?, hparent] at hnext
    | some parent =>
      obtain ⟨index, hchild⟩ := h.exists_child? hparent
      rw [h.nextSibling?_of_child? hchild] at hnext
      exact ⟨parent, index, hchild, hnext⟩
  · rintro ⟨parent, index, hchild, hnext⟩
    rw [h.nextSibling?_of_child? hchild, hnext]

theorem WellFormed.previousSibling?_eq_some_iff {before : NodeId} :
    t.previousSibling? id = some before ↔ ∃ parent index,
      t.child? parent index = some before ∧ t.child? parent (index + 1) = some id := by
  constructor
  · intro hbefore
    cases hparent : t.parent? id with
    | none => simp [previousSibling?, indexInParent?, hparent] at hbefore
    | some parent =>
      obtain ⟨index, hchild⟩ := h.exists_child? hparent
      cases index with
      | zero =>
        rw [h.previousSibling?_of_first hchild] at hbefore
        cases hbefore
      | succ index =>
        rw [h.previousSibling?_of_child? hchild] at hbefore
        exact ⟨parent, index, hbefore, hchild⟩
  · rintro ⟨parent, index, hbefore, hchild⟩
    rw [h.previousSibling?_of_child? hchild, hbefore]

/-- From the first child on, each step to the next sibling leads to the next place. -/
theorem WellFormed.iterate_nextSibling? (parent : NodeId) (count : Nat) :
    (Option.bind · t.nextSibling?)^[count] (t.child? parent 0) = t.child? parent count := by
  induction count with
  | zero => rfl
  | succ count ih =>
    rw [Function.iterate_succ_apply', ih]
    cases hchild : t.child? parent count with
    | some id => exact h.nextSibling?_of_child? hchild
    | none =>
      have hlength := List.getElem?_eq_none_iff.mp hchild
      exact (List.getElem?_eq_none_iff.mpr (Nat.le_succ_of_le hlength)).symm

end Sideways

section Upward

theorem depth_of_top {id : NodeId} (htop : t.parent? id = none) : t.depth id = 0 := by
  rw [depth, ancestors_of_top htop]
  rfl

theorem WellFormed.depth_of_parent? (h : t.WellFormed) {id parent : NodeId}
    (hparent : t.parent? id = some parent) : t.depth id = t.depth parent + 1 := by
  rw [depth, h.ancestors_cons hparent]
  rfl

/-- As many steps to the parent as there are ancestors lead to a top. -/
theorem WellFormed.iterate_parent? (h : t.WellFormed) {id : NodeId}
    (hlive : t.contains id = true) :
    ∃ top ∈ t.root :: t.detached,
      (Option.bind · t.parent?)^[t.depth id] (some id) = some top ∧ t.parent? top = none := by
  induction h.grounded id with
  | @top id htop =>
    refine ⟨id, ?_, by rw [depth_of_top htop]; rfl, htop⟩
    by_cases hroot : id = t.root
    · exact List.mem_cons.mpr (Or.inl hroot)
    · exact List.mem_cons_of_mem _ (mem_detached_iff.mpr ⟨hlive, hroot, htop⟩)
  | @step id parent hparent _ ih =>
    obtain ⟨top, hmem, hway, htop⟩ := ih (h.parent_live hparent)
    refine ⟨top, hmem, ?_, htop⟩
    rw [h.depth_of_parent? hparent, Function.iterate_succ_apply, Option.bind_some, hparent, hway]

end Upward

section Downward

variable {top id : NodeId} {way : List Nat} {index : Nat}

theorem follow?_append (way back : List Nat) :
    t.follow? top (way ++ back) = (t.follow? top way).bind (t.follow? · back) := by
  induction way generalizing top with
  | nil => rfl
  | cons index way ih =>
    rw [List.cons_append, follow?, follow?, Option.bind_assoc]
    exact congrArg _ (funext fun child => ih)

/-- The last step of a way leads from a node to its child. -/
theorem follow?_concat_eq_some_iff :
    t.follow? top (way ++ [index]) = some id ↔
      ∃ parent, t.follow? top way = some parent ∧ t.child? parent index = some id := by
  rw [follow?_append, Option.bind_eq_some_iff]
  simp only [follow?, Option.bind_fun_some]

variable (h : t.WellFormed)
include h

/-- A way down is the way up the other way round, and as long as the depths are apart. -/
theorem WellFormed.within_of_follow? (hway : t.follow? top way = some id) :
    t.Within id top ∧ t.depth id = t.depth top + way.length := by
  induction way using List.reverseRecOn generalizing id with
  | nil =>
    cases hway
    exact ⟨.refl _, rfl⟩
  | append_singleton way index ih =>
    obtain ⟨parent, hparent, hchild⟩ := follow?_concat_eq_some_iff.mp hway
    obtain ⟨hw, hdepth⟩ := ih hparent
    have hup := h.parent?_of_child? hchild
    refine ⟨.step hup hw, ?_⟩
    rw [h.depth_of_parent? hup, hdepth, List.length_append, Nat.add_assoc]
    rfl

theorem WellFormed.exists_follow? (hw : t.Within id top) : ∃ way, t.follow? top way = some id := by
  induction hw with
  | refl => exact ⟨[], rfl⟩
  | step hparent _ ih =>
    obtain ⟨way, hway⟩ := ih
    obtain ⟨index, hchild⟩ := h.exists_child? hparent
    exact ⟨way ++ [index], follow?_concat_eq_some_iff.mpr ⟨_, hway, hchild⟩⟩

theorem WellFormed.follow?_unique {other : List Nat} (hway : t.follow? top way = some id)
    (hother : t.follow? top other = some id) : way = other := by
  have hlength : way.length = other.length := by
    have hdepth := (h.within_of_follow? hway).2
    have hdepth' := (h.within_of_follow? hother).2
    omega
  induction way using List.reverseRecOn generalizing id other with
  | nil => exact (List.length_eq_zero_iff.mp hlength.symm).symm
  | append_singleton way index ih =>
    obtain ⟨other, index', rfl⟩ : ∃ front last, other = front ++ [last] := by
      refine (List.eq_nil_or_concat' other).resolve_left ?_
      rintro rfl
      simp at hlength
    obtain ⟨parent, hparent, hchild⟩ := follow?_concat_eq_some_iff.mp hway
    obtain ⟨parent', hparent', hchild'⟩ := follow?_concat_eq_some_iff.mp hother
    have hsame := h.parent?_of_child? hchild
    rw [h.parent?_of_child? hchild'] at hsame
    cases hsame
    have hindex := h.indexInParent?_of_child? hchild
    rw [h.indexInParent?_of_child? hchild'] at hindex
    cases hindex
    rw [ih hparent hparent' (by simpa using hlength)]

end Downward

end Tree

section Collected

variable {t : Tree} {active seen seen' : List NodeId} {bs : List Branch}
  {log : List (Call × List NodeId)} {stop : Option Unsupported}

/-- The collector goes on everywhere and notes each node of the branches in their order. -/
theorem Course.collected (h : Course (Tree.preorder []) t active bs seen log stop seen') :
    stop = none ∧ seen' = seen ++ Branch.idsAll bs := by
  induction h with
  | nil => exact ⟨rfl, (List.append_nil _).symm⟩
  | refused hv | skipped hv => cases hv
  | @through active b bs _ _ _ _ _ _ _ hv _ _ ihInside ihRest =>
    cases hv
    obtain ⟨_, rfl⟩ := ihInside
    obtain ⟨rfl, rfl⟩ := ihRest
    refine ⟨rfl, ?_⟩
    rw [Branch.idsAll_cons]
    simp [Tree.preorder]
  | broken hv _ ih => cases ih.1

theorem Tree.WellFormed.collect_eq (h : t.WellFormed) {top : NodeId}
    (hlive : t.contains top = true) :
    ∃ summary ids, t.collect top [] = (.ok summary, ids) ∧
      ∀ id, id ∈ ids ↔ t.Within id top := by
  obtain ⟨b, log, stop, seen, _, rfl, held, hcourse, hwalk⟩ :=
    h.exists_course hlive (Tree.preorder []) []
  obtain ⟨rfl, rfl⟩ := hcourse.collected
  refine ⟨_, _, hwalk, fun id => ?_⟩
  simpa using h.mem_ids_iff held id

end Collected

namespace Tree

/-- In every tree that a run leads to, going up, sideways and down agree. What lies within a live
node is what a preorder walk over it shows, and what one way down from it leads to, whose length is
the difference of the depths. Lying within is a partial order in which nothing lies within a dead
node. A child stands at its index in its parent; the next sibling is the one that the node is the
previous sibling of, and stepping to the next sibling from the first child passes through the child
list. As many steps to the parent as the depth says lead to the root or to a detached node, which
have no parent. -/
theorem reachable_ways_agree {t : Tree} (h : t.Reachable) :
    (∀ top, t.contains top = true → ∃ summary ids, t.collect top [] = (.ok summary, ids) ∧
      ∀ id, t.isWithin id top = true ↔ id ∈ ids) ∧
    (∀ id top, (t.isWithin id top = true ↔ ∃! way, t.follow? top way = some id) ∧
      ∀ way, t.follow? top way = some id → t.depth id = t.depth top + way.length) ∧
    ((∀ id, t.isWithin id id = true) ∧
      (∀ id other top, t.isWithin id other = true → t.isWithin other top = true →
        t.isWithin id top = true) ∧
      (∀ id top, t.isWithin id top = true → t.isWithin top id = true → id = top) ∧
      ∀ id dead, t.contains id = true → t.contains dead = false → t.isWithin id dead = false) ∧
    (∀ id parent, t.parent? id = some parent →
      (t.indexInParent? id).bind (t.child? parent) = some id) ∧
    (∀ id next, t.nextSibling? id = some next ↔ t.previousSibling? next = some id) ∧
    (∀ parent count, (Option.bind · t.nextSibling?)^[count] (t.child? parent 0) =
      (t.children parent)[count]?) ∧
    ∀ id, t.contains id = true → ∃ top ∈ t.root :: t.detached,
      (Option.bind · t.parent?)^[t.depth id] (some id) = some top ∧ t.parent? top = none := by
  have hwf := h.wellFormed
  refine ⟨?_, ?_, ⟨?_, ?_, ?_, ?_⟩, ?_, ?_, hwf.iterate_nextSibling?,
    fun id => hwf.iterate_parent?⟩
  · intro top hlive
    obtain ⟨summary, ids, hcollect, hmem⟩ := hwf.collect_eq hlive
    exact ⟨summary, ids, hcollect, fun id => (isWithin_iff hwf id top).trans (hmem id).symm⟩
  · intro id top
    refine ⟨(isWithin_iff hwf id top).trans ⟨?_, ?_⟩, fun way hway =>
      (hwf.within_of_follow? hway).2⟩
    · intro hw
      obtain ⟨way, hway⟩ := hwf.exists_follow? hw
      exact ⟨way, hway, fun other hother => hwf.follow?_unique hother hway⟩
    · rintro ⟨way, hway, _⟩
      exact (hwf.within_of_follow? hway).1
  · exact fun id => (isWithin_iff hwf id id).mpr (.refl id)
  · simp only [isWithin_iff hwf]
    exact fun _ _ _ => Within.trans
  · simp only [isWithin_iff hwf]
    exact fun id _ => Within.antisymm (hwf.grounded id)
  · intro id dead hlive hdead
    apply Bool.eq_false_iff.mpr
    rw [Ne, isWithin_iff hwf]
    intro hw
    rw [hwf.live_of_within hw hlive] at hdead
    cases hdead
  · intro id parent hparent
    obtain ⟨index, hchild⟩ := hwf.exists_child? hparent
    rw [hwf.indexInParent?_of_child? hchild, Option.bind_some, hchild]
  · intro id next
    rw [hwf.nextSibling?_eq_some_iff, hwf.previousSibling?_eq_some_iff]

/-- A function with two statements, and a comment that stands nowhere. -/
theorem function_ways_agree :
    ∃ t : Tree, t.Reachable ∧ t.detached = [⟨4, 0⟩] ∧
      t.previousSibling? ⟨3, 0⟩ = some ⟨2, 0⟩ ∧
      (∃! way, t.follow? ⟨0, 0⟩ way = some ⟨3, 0⟩) ∧
      ∃ summary ids, t.collect ⟨1, 0⟩ [] = (.ok summary, ids) ∧ ⟨3, 0⟩ ∈ ids ∧ ⟨4, 0⟩ ∉ ids := by
  have hreach := (reachable_new none).run
    [.create (.function "f" [] []), .create .block, .create .breakStatement,
      .create (.comment "c"), .appendChild ⟨0, 0⟩ ⟨1, 0⟩, .appendChild ⟨1, 0⟩ ⟨2, 0⟩,
      .appendChild ⟨1, 0⟩ ⟨3, 0⟩]
  obtain ⟨hcollect, hway, _, _, hsibling, _⟩ := reachable_ways_agree hreach
  obtain ⟨summary, ids, hids, hmem⟩ := hcollect ⟨1, 0⟩ (by decide)
  refine ⟨_, hreach, by decide, (hsibling _ _).mp (by decide), (hway _ _).1.mp (by decide),
    summary, ids, hids, (hmem _).mp (by decide), ?_⟩
  rw [← hmem]
  decide

end Tree
end ProgramTree
