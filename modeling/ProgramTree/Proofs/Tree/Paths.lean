import ProgramTree.Proofs.Tree.Branches

/-! # The way up from a node

A node, its parent, the parent of that one and so on up to the top. In a
well-formed tree the way of a child is that of its parent with the child in
front, so what is counted along a way is counted node by node. The part of a
branch that lies within one of its nodes is the branch of that node, in one
piece and in the same order. -/

namespace ProgramTree

set_option autoImplicit false

namespace Tree

variable {t : Tree} {id parent : NodeId}

/-- A walk upward that ends before its bound takes no more steps under a larger one. -/
theorem ancestorsUpTo_succ {steps : Nat} (h : (t.ancestorsUpTo steps id).length < steps) :
    t.ancestorsUpTo (steps + 1) id = t.ancestorsUpTo steps id := by
  induction steps generalizing id with
  | zero => exact absurd h (Nat.not_lt_zero _)
  | succ steps ih =>
    rw [ancestorsUpTo, ancestorsUpTo]
    cases hparent : t.parent? id with
    | none => rfl
    | some parent =>
      simp only [ancestorsUpTo, hparent, List.length_cons, Nat.add_lt_add_iff_right] at h
      simp only [ih h]

theorem ancestors_of_top (htop : t.parent? id = none) : t.ancestors id = [] := by
  rw [ancestors]
  cases t.size with
  | zero => rfl
  | succ steps => simp [ancestorsUpTo, htop]

theorem WellFormed.ancestors_cons (h : t.WellFormed) (hparent : t.parent? id = some parent) :
    t.ancestors id = parent :: t.ancestors parent := by
  have hlength := length_ancestors_lt h (contains_of_parent? hparent)
  rw [ancestors] at hlength
  rw [ancestors, ancestors]
  cases hsize : t.size with
  | zero => simp [hsize] at hlength
  | succ steps =>
    simp only [hsize, ancestorsUpTo, hparent, List.length_cons, Nat.add_lt_add_iff_right] at hlength
    rw [ancestorsUpTo_succ hlength]
    simp only [ancestorsUpTo, hparent]

theorem WellFormed.ancestors_nodup (h : t.WellFormed) (id : NodeId) :
    (id :: t.ancestors id).Nodup :=
  nodup_cons_ancestorsUpTo h t.size id

theorem WellFormed.mem_way_iff (h : t.WellFormed) (id above : NodeId) :
    above ∈ id :: t.ancestors id ↔ t.Within id above := by
  rw [List.mem_cons, mem_ancestors_iff h, within_iff, eq_comm]

/-- Of the nodes on a way that have a property, just one has a given number of others above it,
if there are so many. -/
theorem WellFormed.countP_way (h : t.WellFormed) (test : NodeId → Bool) (above : Nat)
    (id : NodeId) :
    ((id :: t.ancestors id).countP fun other =>
      test other && (t.ancestors other).countP test == above) =
        if above < (id :: t.ancestors id).countP test then 1 else 0 := by
  induction h.grounded id with
  | @top id htop =>
    rw [ancestors_of_top htop]
    cases htest : test id <;> cases above <;> simp [htest, ancestors_of_top htop]
  | @step id parent hparent _ ih =>
    rw [List.countP_cons, h.ancestors_cons hparent, ih, List.countP_cons (a := id)]
    generalize (parent :: t.ancestors parent).countP test = count
    cases htest : test id with
    | false => simp
    | true =>
      simp only [Bool.true_and, beq_iff_eq, if_true]
      split <;> split <;> split <;> omega

end Tree

/-- Two lists without repetitions have as many common entries of a sort, whichever is searched. -/
theorem countP_mem_comm {α : Type} [DecidableEq α] {xs ys : List α} (hxs : xs.Nodup)
    (hys : ys.Nodup) (test : α → Bool) :
    (xs.countP fun x => decide (x ∈ ys) && test x) =
      ys.countP fun y => decide (y ∈ xs) && test y := by
  rw [List.countP_eq_length_filter, List.countP_eq_length_filter]
  refine List.Perm.length_eq ((List.perm_ext_iff_of_nodup (hxs.filter _) (hys.filter _)).mpr ?_)
  intro x
  simp only [List.mem_filter, Bool.and_eq_true, decide_eq_true_eq]
  exact and_left_comm

/-- One entry alone gives something. -/
theorem flatMap_eq_of_alone {α β : Type} {xs : List α} {x : α} {f : α → List β} (hxs : xs.Nodup)
    (hx : x ∈ xs) (halone : ∀ y ∈ xs, y ≠ x → f y = []) : xs.flatMap f = f x := by
  obtain ⟨before, after, rfl⟩ := List.append_of_mem hx
  have hout : x ∉ before ++ after := (List.nodup_cons.mp (List.nodup_middle.mp hxs)).1
  rw [List.mem_append, not_or] at hout
  have hbefore : before.flatMap f = [] := List.flatMap_eq_nil_iff.mpr fun y hy =>
    halone y (List.mem_append_left _ hy) (by rintro rfl; exact hout.1 hy)
  have hafter : after.flatMap f = [] := List.flatMap_eq_nil_iff.mpr fun y hy =>
    halone y (List.mem_append_right _ (List.mem_cons_of_mem x hy)) (by rintro rfl; exact hout.2 hy)
  rw [List.flatMap_append, List.flatMap_cons, hbefore, hafter, List.nil_append, List.append_nil]

namespace Branch

variable {t : Tree}

theorem mem_idsAll_iff {bs : List Branch} {id : NodeId} :
    id ∈ idsAll bs ↔ ∃ b ∈ bs, id ∈ b.ids := by
  rw [idsAll_eq, List.mem_flatMap]

/-- What lies within a node of a branch, in the order of the branch, is the branch of the node. -/
theorem HeldBy.filter_ids {b inner : Branch} (held : b.HeldBy t) (h : t.WellFormed)
    (heldInner : inner.HeldBy t) (hin : inner.id ∈ b.ids) :
    b.ids.filter (t.isWithin · inner.id) = inner.ids := by
  induction held with
  | @node top payload children hpayload hchildren hall ih =>
    have heldTop : (Branch.node top payload children).HeldBy t := .node hpayload hchildren hall
    by_cases hid : top = inner.id
    · -- the branch itself is the inner one
      obtain rfl : Branch.node top payload children = inner := heldTop.unique heldInner hid
      refine List.filter_eq_self.mpr fun id hmem => ?_
      exact (Tree.isWithin_iff h id _).mpr ((h.mem_ids_iff heldTop id).mp hmem)
    · have hparent : ∀ b ∈ children, t.parent? b.id = some top := fun b hb =>
        heldTop.parent?_child h hb
      have hinside : inner.id ∈ idsAll children := by
        rcases List.mem_cons.mp hin with heq | hinside
        · exact absurd heq.symm hid
        · exact hinside
      obtain ⟨child, hchild, hmem⟩ := mem_idsAll_iff.mp hinside
      have hwithin := (h.mem_ids_iff (hall child hchild) inner.id).mp hmem
      have htop : ¬ t.Within top inner.id := fun hw =>
        (h.grounded child.id).parent_not_within (hparent child hchild) (hw.trans hwithin)
      rw [ids, List.filter_cons_of_neg (by simpa [Tree.isWithin_iff h] using htop)]
      -- only the child that the node lies within has anything to give
      have hothers : ∀ other ∈ children, other ≠ child →
          other.ids.filter (t.isWithin · inner.id) = [] := by
        intro other hother hne
        refine List.filter_eq_nil_iff.mpr fun id hmem => ?_
        rw [Tree.isWithin_iff h]
        intro hw
        have hwOther := (h.mem_ids_iff (hall other hother) id).mp hmem
        have heq := h.eq_of_within_siblings (hparent other hother) (hparent child hchild) hwOther
          (hw.trans hwithin)
        exact hne ((hall other hother).unique (hall child hchild) heq)
      have hnodup : children.Nodup := by
        have hids := h.children_nodup top
        rw [hchildren] at hids
        exact hids.of_map Branch.id
      rw [idsAll_eq, List.filter_flatMap, flatMap_eq_of_alone hnodup hchild hothers]
      exact ih child hchild hmem

end Branch
end ProgramTree
