import ProgramTree.Proofs.Tree.Branches
import ProgramTree.Proofs.Tree.Links

/-! # Freeing detached subtrees

Freeing works through a stack of identities and puts the children of each node
that it removes on the stack. In a well-formed tree the branches of what lies on
the stack have no node in common, so every node is met once, and freeing a
branch removes exactly what lies within its node. When the node is not the root
and has no parent, nothing that stays refers to what was removed, so the rest is
as it was. A sweep does this for one detached node after the other, and freeing
one leaves the others detached. -/

namespace ProgramTree.Tree

set_option autoImplicit false

variable {t : Tree}

section Stack

theorem freeStack_cons_of_dead {id : NodeId} (hdead : t.node? id = none) (stack : List NodeId) :
    t.freeStack (id :: stack) = t.freeStack stack := by
  rw [freeStack]
  split
  · rename_i node hnode
    rw [hdead] at hnode
    cases hnode
  · rfl

theorem freeStack_cons_of_live {id : NodeId} {node : Node} (hnode : t.node? id = some node)
    (stack : List NodeId) :
    t.freeStack (id :: stack) =
      (((t.free id).freeStack (node.children.reverse ++ stack)).1 + 1,
        ((t.free id).freeStack (node.children.reverse ++ stack)).2) := by
  rw [freeStack]
  split
  · rename_i found hfound
    rw [hnode] at hfound
    cases hfound
    rfl
  · rename_i hdead
    rw [hnode] at hdead
    cases hdead

theorem heldBy_free {b : Branch} (held : b.HeldBy t) {id : NodeId} (hout : id ∉ b.ids) :
    b.HeldBy (t.free id) := by
  refine held.congr fun other hother => ?_
  have hsame : (t.free id).node? other = t.node? other := by
    rw [node?_free, if_neg]
    rintro rfl
    exact hout hother
  obtain ⟨_, hpayload, _, _, hchildren⟩ := views_congr hsame
  exact ⟨hpayload, hchildren⟩

/-- A stack of branches that hold no node twice is freed node by node, and nothing else is. -/
theorem freeStack_of_held {bs : List Branch} (hheld : ∀ b ∈ bs, b.HeldBy t)
    (hnodup : (Branch.idsAll bs).Nodup) :
    (t.freeStack (bs.map Branch.id)).1 = (Branch.idsAll bs).length ∧
      ∀ id, (t.freeStack (bs.map Branch.id)).2.node? id =
        if id ∈ Branch.idsAll bs then none else t.node? id := by
  generalize hcount : (Branch.idsAll bs).length = count
  induction count generalizing t bs with
  | zero =>
    cases bs with
    | nil => simp [freeStack]
    | cons b bs =>
      rw [Branch.idsAll_cons] at hcount
      cases hcount
  | succ count ih =>
    cases bs with
    | nil => simp at hcount
    | cons b bs =>
      rw [Branch.idsAll_cons] at hnodup hcount
      obtain ⟨htop, hrest⟩ := List.nodup_cons.mp hnodup
      obtain ⟨hb, hbs⟩ := List.forall_mem_cons.mp hheld
      have hperm : (Branch.idsAll (b.children.reverse ++ bs)).Perm
          (Branch.idsAll b.children ++ Branch.idsAll bs) := by
        simp only [Branch.idsAll_eq, List.flatMap_append]
        exact ((List.reverse_perm _).flatMap_right _).append_right _
      have hheld' : ∀ c ∈ b.children.reverse ++ bs, c.HeldBy (t.free b.id) := by
        intro c hc
        have hout : b.id ∉ c.ids := fun hin => htop (hperm.mem_iff.mp (by
          rw [Branch.idsAll_eq]
          exact List.mem_flatMap.mpr ⟨c, hc, hin⟩))
        rcases List.mem_append.mp hc with hc | hc
        · exact heldBy_free (hb.children c (List.mem_reverse.mp hc)) hout
        · exact heldBy_free (hbs c hc) hout
      obtain ⟨hanswer, hnode⟩ := ih hheld' (hperm.nodup_iff.mpr hrest)
        (by simpa [hperm.length_eq] using hcount)
      obtain ⟨payload, _, hread⟩ := node?_eq_some hb.live
      rw [List.map_cons, freeStack_cons_of_live hread, hb.children_eq, ← List.map_reverse,
        ← List.map_append]
      refine ⟨by rw [hanswer], fun id => ?_⟩
      rw [Branch.idsAll_cons, hnode, node?_free]
      simp only [hperm.mem_iff, List.mem_cons]
      by_cases hid : id = b.id <;> simp [hid]

/-- What the removal of a single node keeps is kept by all of it. -/
theorem freeStack_keeps {P : Tree → Prop} (hfree : ∀ t id, P t → P (t.free id)) (t : Tree)
    (stack : List NodeId) (h : P t) : P (t.freeStack stack).2 := by
  fun_induction freeStack t stack with
  | case1 t => exact h
  | case2 t id stack node hnode _ count t' heq ih =>
    have hrest := ih (hfree t id h)
    rwa [heq] at hrest
  | case3 t id stack hdead ih => exact ih h

end Stack

theorem freeBranch_of_dead {id : NodeId} (hdead : t.contains id ≠ true) :
    t.freeBranch id = (0, t) := by
  have hnode : t.node? id = none := (t.contains_eq_false_iff id).mp (Bool.not_eq_true _ ▸ hdead)
  rw [freeBranch, freeStack_cons_of_dead hnode, freeStack]

@[simp] theorem root_freeBranch (id : NodeId) : (t.freeBranch id).2.root = t.root :=
  freeStack_keeps (P := fun t' => t'.root = t.root) (fun _ _ h => h) t [id] rfl

theorem sound_freeBranch (sound : t.nodes.Sound) (id : NodeId) :
    (t.freeBranch id).2.nodes.Sound :=
  freeStack_keeps (P := fun t' => t'.nodes.Sound) (fun t id h => t.nodes.sound_remove h id) t [id]
    sound

/-- Frees the branches of nodes one after the other and adds up the numbers. -/
def freeTops (state : Nat × Tree) (tops : List NodeId) : Nat × Tree :=
  tops.foldl (fun state id =>
    (state.1 + (state.2.freeBranch id).1, (state.2.freeBranch id).2)) state

theorem sweep_eq (t : Tree) : t.sweep = freeTops (0, t) t.detached := rfl

theorem freeTops_cons (count : Nat) (t : Tree) (id : NodeId) (tops : List NodeId) :
    freeTops (count, t) (id :: tops) =
      freeTops (count + (t.freeBranch id).1, (t.freeBranch id).2) tops := rfl

theorem sweep_keeps {P : Tree → Prop} (hfree : ∀ t id, P t → P (t.free id)) (t : Tree)
    (h : P t) : P t.sweep.2 := by
  rw [sweep_eq]
  generalize t.detached = tops, 0 = count
  induction tops generalizing t count with
  | nil => exact h
  | cons id tops ih => exact ih _ (freeStack_keeps hfree t [id] h) _

theorem root_sweep : t.sweep.2.root = t.root :=
  sweep_keeps (P := fun t' => t'.root = t.root) (fun _ _ h => h) t rfl

theorem mem_detached_iff {id : NodeId} :
    id ∈ t.detached ↔ t.contains id = true ∧ id ≠ t.root ∧ t.parent? id = none := by
  have hdetached : t.isDetached id = true ↔
      t.contains id = true ∧ id ≠ t.root ∧ t.parent? id = none := by
    cases hnode : t.node? id with
    | none =>
      have hdead := (t.contains_eq_false_iff id).mpr hnode
      simp [isDetached, hnode, hdead]
    | some node =>
      have hlive := (t.contains_iff id).mpr ⟨node, hnode⟩
      simp [isDetached, parent?, hnode, hlive, and_comm]
  rw [detached, List.mem_filter, hdetached, mem_nodes_ids_iff]
  exact ⟨And.right, fun h => ⟨h.1, h⟩⟩

namespace WellFormed

variable (h : t.WellFormed)
include h

theorem freeBranch_of_held {b : Branch} (held : b.HeldBy t) :
    (t.freeBranch b.id).1 = b.ids.length ∧
      ∀ id, (t.freeBranch b.id).2.node? id = if id ∈ b.ids then none else t.node? id := by
  have hheld : ∀ c ∈ [b], c.HeldBy t := by simpa using held
  simpa [freeBranch] using freeStack_of_held hheld (by simpa using h.nodup_ids held)

section Branch

variable {id : NodeId}

theorem node?_freeBranch_of_within {other : NodeId} (hlive : t.contains id = true)
    (hw : t.Within other id) : (t.freeBranch id).2.node? other = none := by
  obtain ⟨b, _, rfl, held⟩ := h.exists_branch? hlive
  rw [(h.freeBranch_of_held held).2, if_pos ((h.mem_ids_iff held other).mpr hw)]

theorem node?_freeBranch_of_not_within {other : NodeId} (hout : ¬ t.Within other id) :
    (t.freeBranch id).2.node? other = t.node? other := by
  by_cases hlive : t.contains id = true
  · obtain ⟨b, _, rfl, held⟩ := h.exists_branch? hlive
    rw [(h.freeBranch_of_held held).2, if_neg fun hin => hout ((h.mem_ids_iff held other).mp hin)]
  · rw [freeBranch_of_dead hlive]

/-- No child list reaches into what is freed. -/
theorem not_within_of_mem_children (htop : t.parent? id = none) {child parent : NodeId}
    (hout : ¬ t.Within parent id) (hchild : child ∈ t.children parent) : ¬ t.Within child id := by
  have hparent := h.parent_iff.mpr hchild
  intro hw
  rcases within_iff.mp hw with rfl | ⟨above, habove, hw⟩
  · rw [htop] at hparent
    cases hparent
  · rw [hparent] at habove
    cases habove
    exact hout hw

variable (hlive : t.contains id = true)
include hlive

theorem mem_children_freeBranch {child parent : NodeId} :
    child ∈ (t.freeBranch id).2.children parent ↔
      child ∈ t.children parent ∧ ¬ t.Within parent id := by
  by_cases hw : t.Within parent id
  · simp [children, h.node?_freeBranch_of_within hlive hw, hw]
  · obtain ⟨_, _, _, _, hchildren⟩ := views_congr (h.node?_freeBranch_of_not_within hw)
    rw [hchildren]
    exact ⟨fun hmem => ⟨hmem, hw⟩, And.left⟩

theorem parent?_freeBranch {child parent : NodeId} :
    (t.freeBranch id).2.parent? child = some parent ↔
      t.parent? child = some parent ∧ ¬ t.Within child id := by
  by_cases hw : t.Within child id
  · simp [parent?, h.node?_freeBranch_of_within hlive hw, hw]
  · obtain ⟨_, _, _, hparent, _⟩ := views_congr (h.node?_freeBranch_of_not_within hw)
    rw [hparent]
    exact ⟨fun hsome => ⟨hsome, hw⟩, And.left⟩

theorem freeBranch (htop : t.parent? id = none) (hroot : id ≠ t.root) :
    (t.freeBranch id).2.WellFormed := by
  have hrootOut : ¬ t.Within t.root id := by
    intro hw
    exact hroot (within_of_parent?_eq_none h.root_top hw).symm
  obtain ⟨hrootLive, _, _, hrootTop, _⟩ := views_congr (h.node?_freeBranch_of_not_within hrootOut)
  refine ⟨sound_freeBranch h.sound id, ?_, ?_, ?_, ?_, ?_, ?_, ?_⟩
  · rw [root_freeBranch, hrootLive, h.root_live]
  · rw [root_freeBranch, hrootTop, h.root_top]
  · intro child parent hchild
    obtain ⟨hmem, hout⟩ := (h.mem_children_freeBranch hlive).mp hchild
    have hstay := h.not_within_of_mem_children htop hout hmem
    rw [(views_congr (h.node?_freeBranch_of_not_within hstay)).1]
    exact h.child_live hmem
  · intro child parent
    rw [h.parent?_freeBranch hlive, h.mem_children_freeBranch hlive, h.parent_iff]
    refine and_congr_right fun hmem => ⟨?_, ?_⟩
    · exact fun hout hw => hout (.step (h.parent_iff.mpr hmem) hw)
    · exact fun hout => h.not_within_of_mem_children htop hout hmem
  · intro parent
    by_cases hw : t.Within parent id
    · simp [children, h.node?_freeBranch_of_within hlive hw]
    · obtain ⟨_, _, _, _, hchildren⟩ := views_congr (h.node?_freeBranch_of_not_within hw)
      rw [hchildren]
      exact h.children_nodup parent
  · exact fun other => (h.grounded other).mono fun _ _ hparent =>
      ((h.parent?_freeBranch hlive).mp hparent).1
  · intro parent kind hkind
    have hout : ¬ t.Within parent id := by
      intro hw
      simp [kind?, payload?, h.node?_freeBranch_of_within hlive hw] at hkind
    obtain ⟨_, _, hkindEq, _, hchildren⟩ := views_congr (h.node?_freeBranch_of_not_within hout)
    have hkinds : (t.freeBranch id).2.kindsOf (t.children parent) =
        t.kindsOf (t.children parent) := by
      refine List.filterMap_congr fun child hmem => ?_
      have hstay := h.not_within_of_mem_children htop hout hmem
      exact (views_congr (h.node?_freeBranch_of_not_within hstay)).2.2.1
    rw [hchildren, hkinds]
    exact h.layout (hkindEq ▸ hkind)

end Branch

section Sweep

/-- Freeing one top after the other keeps the tree well-formed, and the tops stay tops. -/
theorem freeTops (count : Nat) (tops : List NodeId)
    (htops : ∀ id ∈ tops, id ≠ t.root ∧ t.parent? id = none) :
    (Tree.freeTops (count, t) tops).2.WellFormed := by
  induction tops generalizing t count with
  | nil => exact h
  | cons id tops ih =>
    obtain ⟨hroot, htop⟩ := htops id List.mem_cons_self
    have hrest : ∀ other ∈ tops, other ≠ t.root ∧ t.parent? other = none := fun other hother =>
      htops other (List.mem_cons_of_mem id hother)
    rw [freeTops_cons]
    by_cases hlive : t.contains id = true
    · refine ih (h.freeBranch hlive htop hroot) _ fun other hother => ?_
      obtain ⟨hne, hnone⟩ := hrest other hother
      refine ⟨by rw [root_freeBranch]; exact hne, ?_⟩
      refine Option.eq_none_iff_forall_ne_some.mpr fun parent hparent => ?_
      rw [((h.parent?_freeBranch hlive).mp hparent).1] at hnone
      cases hnone
    · rw [freeBranch_of_dead hlive]
      exact ih h _ hrest

theorem sweep : t.sweep.2.WellFormed :=
  h.freeTops 0 t.detached fun _ hid => (mem_detached_iff.mp hid).2

end Sweep

end WellFormed

end ProgramTree.Tree
