import Mathlib.Data.List.Nodup
import ProgramTree.Tree.Branch
import ProgramTree.Proofs.Tree.Invariant

/-! # Branches of a well-formed tree

Taking a branch out of the store is bounded by the number of nodes. In a
well-formed tree the bound does not cut anything off: every live node has a
branch, which holds what lies within the node and holds each identity once. -/

namespace ProgramTree

set_option autoImplicit false

namespace Branch

/-- The tree holds each node of the branch, with the same payload and the same children. -/
inductive HeldBy (t : Tree) : Branch → Prop
  | node {id : NodeId} {payload : Payload} {children : List Branch} :
      t.payload? id = some payload → t.children id = children.map Branch.id →
      (∀ b ∈ children, b.HeldBy t) → (Branch.node id payload children).HeldBy t

@[simp] theorem idsAll_eq (bs : List Branch) : idsAll bs = bs.flatMap ids := by
  induction bs with
  | nil => rfl
  | cons b bs ih => simp [idsAll, ih]

theorem idsAll_cons (b : Branch) (bs : List Branch) :
    idsAll (b :: bs) = b.id :: (idsAll b.children ++ idsAll bs) := by
  cases b
  simp [idsAll, ids, Branch.id, Branch.children]

mutual

theorem length_ids : (b : Branch) → b.ids.length = b.snapshot.size
  | node _ _ children => by
    rw [ids, snapshot, Snapshot.size, List.length_cons, length_idsAll children, Nat.add_comm]

theorem length_idsAll : (bs : List Branch) → (idsAll bs).length = Snapshot.sizeAll (snapshots bs)
  | [] => rfl
  | b :: bs => by
    rw [idsAll, snapshots, Snapshot.sizeAll, List.length_append, length_ids b, length_idsAll bs]

end

theorem HeldBy.kind {t : Tree} {b : Branch} (held : b.HeldBy t) :
    t.kind? b.id = some b.kind := by
  cases held with
  | node hpayload _ _ => simp [Tree.kind?, Branch.id, hpayload, Branch.kind, Branch.payload]

theorem HeldBy.live {t : Tree} {b : Branch} (held : b.HeldBy t) : t.contains b.id = true :=
  Tree.contains_of_kind? held.kind

theorem HeldBy.children {t : Tree} {b : Branch} (held : b.HeldBy t) :
    ∀ c ∈ b.children, c.HeldBy t := by
  cases held with
  | node _ _ hall => exact hall

theorem HeldBy.children_eq {t : Tree} {b : Branch} (held : b.HeldBy t) :
    t.children b.id = b.children.map Branch.id := by
  cases held with
  | node _ hchildren _ => exact hchildren

theorem HeldBy.parent?_child {t : Tree} {b : Branch} (held : b.HeldBy t) (h : t.WellFormed)
    {c : Branch} (hc : c ∈ b.children) : t.parent? c.id = some b.id :=
  h.parent_iff.mpr (held.children_eq ▸ List.mem_map_of_mem hc)

theorem HeldBy.unique {t : Tree} {b b' : Branch} (held : b.HeldBy t) (held' : b'.HeldBy t)
    (hid : b.id = b'.id) : b = b' := by
  induction held generalizing b' with
  | @node top payload children hpayload hchildren hall ih =>
    cases held' with
    | @node top' payload' children' hpayload' hchildren' hall' =>
      have htop : top = top' := hid
      subst htop
      rw [hpayload] at hpayload'
      rw [hchildren] at hchildren'
      cases hpayload'
      have hsame : children = children' := by
        clear hchildren hall hid
        induction children generalizing children' with
        | nil => exact (List.map_eq_nil_iff.mp hchildren'.symm).symm
        | cons c cs ih' =>
          cases children' with
          | nil => cases hchildren'
          | cons c' cs' =>
            obtain ⟨hc, hcs⟩ := List.cons.inj hchildren'
            obtain ⟨hc', hall'⟩ := List.forall_mem_cons.mp hall'
            rw [ih c List.mem_cons_self hc' hc,
              ih' (fun b hb => ih b (List.mem_cons_of_mem c hb)) hall' hcs]
      rw [hsame]

theorem id_mem_ids (b : Branch) : b.id ∈ b.ids := by
  cases b
  simp [id, ids]

/-- A branch is held by every tree in which its nodes are as they were. -/
theorem HeldBy.congr {t t' : Tree} {b : Branch} (held : b.HeldBy t)
    (h : ∀ id ∈ b.ids, t'.payload? id = t.payload? id ∧ t'.children id = t.children id) :
    b.HeldBy t' := by
  induction held with
  | @node id payload children hpayload hchildren _ ih =>
    obtain ⟨hsame, hsame'⟩ := h id (id_mem_ids _)
    refine .node (hsame.trans hpayload) (hsame'.trans hchildren) fun b hb => ih b hb ?_
    intro other hother
    apply h other
    rw [ids, idsAll_eq]
    exact List.mem_cons_of_mem _ (List.mem_flatMap.mpr ⟨b, hb, hother⟩)

end Branch

namespace Tree

variable {t : Tree}

theorem branch?_of_dead {id : NodeId} (hdead : t.contains id = false) : t.branch? id = none := by
  have hnode := (t.contains_eq_false_iff id).mp hdead
  rw [branch?]
  cases t.size with
  | zero => rfl
  | succ levels => simp [branchUpTo, hnode]

/-- A walk that arrives from elsewhere arrives through a child. -/
theorem Within.eq_or_child {id top : NodeId} (h : t.Within id top) :
    id = top ∨ ∃ child, t.parent? child = some top ∧ t.Within id child := by
  induction h with
  | refl => exact Or.inl rfl
  | @step id parent top hparent h ih =>
    rcases ih with rfl | ⟨child, hchild, hw⟩
    · exact Or.inr ⟨id, hparent, .refl id⟩
    · exact Or.inr ⟨child, hchild, .step hparent hw⟩

/-- The nodes of a list that each have a branch, as the branches that they have. -/
theorem exists_branches {levels : Nat} {ids : List NodeId}
    (hbranch : ∀ id ∈ ids, ∃ b, t.branchUpTo levels id = some b ∧ b.id = id ∧ b.HeldBy t) :
    ∃ bs, ids.filterMap (t.branchUpTo levels) = bs ∧ ids = bs.map Branch.id ∧
      ∀ b ∈ bs, b.HeldBy t := by
  induction ids with
  | nil => exact ⟨[], rfl, rfl, by simp⟩
  | cons id ids ih =>
    obtain ⟨⟨b, hb, hid, hheld⟩, hrest⟩ := List.forall_mem_cons.mp hbranch
    obtain ⟨bs, hbs, hmap, hall⟩ := ih hrest
    exact ⟨b :: bs, by simp [hb, hbs], by simp [hid, ← hmap],
      List.forall_mem_cons.mpr ⟨hheld, hall⟩⟩

namespace WellFormed

variable (h : t.WellFormed)
include h

/-- What lies within two children of a node lies within one child. -/
theorem eq_of_within_siblings {id parent child child' : NodeId}
    (hchild : t.parent? child = some parent) (hchild' : t.parent? child' = some parent)
    (hw : t.Within id child) (hw' : t.Within id child') : child = child' := by
  have key : ∀ {a b : NodeId}, t.parent? a = some parent → t.parent? b = some parent →
      t.Within a b → a = b := by
    intro a b ha hb hab
    rcases within_iff.mp hab with rfl | ⟨above, habove, hab⟩
    · rfl
    · rw [ha] at habove
      cases habove
      exact absurd hab ((h.grounded b).parent_not_within hb)
  rcases hw.comparable hw' with hcc | hcc
  · exact key hchild hchild' hcc
  · exact (key hchild' hchild hcc).symm

/-- The branch of a live node, taken with levels for all nodes that do not lie above it. -/
theorem exists_branchUpTo {levels : Nat} {id : NodeId} (above : List NodeId)
    (hnodup : (id :: above).Nodup) (hlive : ∀ other ∈ id :: above, t.contains other = true)
    (habove : ∀ other ∈ above, t.Within id other) (hsize : t.size ≤ levels + above.length) :
    ∃ b, t.branchUpTo levels id = some b ∧ b.id = id ∧ b.HeldBy t := by
  induction levels generalizing id above with
  | zero =>
    have hle := t.length_le_size hnodup hlive
    simp only [List.length_cons] at hle
    omega
  | succ levels ih =>
    obtain ⟨payload, hpayload, hnode⟩ := node?_eq_some (hlive id List.mem_cons_self)
    have hchild : ∀ child ∈ t.children id,
        ∃ b, t.branchUpTo levels child = some b ∧ b.id = child ∧ b.HeldBy t := by
      intro child hmem
      have hparent := h.parent_iff.mpr hmem
      refine ih (id :: above) (List.nodup_cons.mpr ⟨?_, hnodup⟩) ?_ ?_ ?_
      · intro hin
        apply (h.grounded child).parent_not_within hparent
        rcases List.mem_cons.mp hin with rfl | hin
        · exact .refl child
        · exact habove child hin
      · intro other hother
        rcases List.mem_cons.mp hother with rfl | hother
        · exact h.child_live hmem
        · exact hlive other hother
      · intro other hother
        rcases List.mem_cons.mp hother with rfl | hother
        · exact .single hparent
        · exact .step hparent (habove other hother)
      · simp only [List.length_cons]
        omega
    obtain ⟨bs, hbs, hmap, hall⟩ := exists_branches hchild
    exact ⟨.node id payload bs, by simp [branchUpTo, hnode, hbs], rfl, .node hpayload hmap hall⟩

theorem exists_branch? {id : NodeId} (hlive : t.contains id = true) :
    ∃ b, t.branch? id = some b ∧ b.id = id ∧ b.HeldBy t :=
  h.exists_branchUpTo [] (List.nodup_singleton id) (by simpa using hlive) (by simp)
    (Nat.le_refl _)

theorem branch?_of_heldBy {b : Branch} (held : b.HeldBy t) : t.branch? b.id = some b := by
  obtain ⟨b', hb', hid, held'⟩ := h.exists_branch? held.live
  rw [hb', held'.unique held hid]

/-- A branch holds what lies within its node. -/
theorem mem_ids_iff {b : Branch} (held : b.HeldBy t) (id : NodeId) :
    id ∈ b.ids ↔ t.Within id b.id := by
  induction held with
  | @node top payload children hpayload hchildren _ ih =>
    simp only [Branch.ids, Branch.idsAll_eq, List.mem_cons, List.mem_flatMap, Branch.id]
    constructor
    · rintro (rfl | ⟨b, hb, hid⟩)
      · exact .refl id
      · have hmem : b.id ∈ t.children top := hchildren ▸ List.mem_map_of_mem hb
        exact ((ih b hb).mp hid).trans (.single (h.parent_iff.mpr hmem))
    · intro hw
      rcases hw.eq_or_child with rfl | ⟨child, hchild, hw⟩
      · exact Or.inl rfl
      · have hmem := h.parent_iff.mp hchild
        rw [hchildren] at hmem
        obtain ⟨b, hb, rfl⟩ := List.mem_map.mp hmem
        exact Or.inr ⟨b, hb, (ih b hb).mpr hw⟩

theorem nodup_ids {b : Branch} (held : b.HeldBy t) : b.ids.Nodup := by
  induction held with
  | @node top payload children hpayload hchildren hheld ih =>
    have hparent : ∀ b ∈ children, t.parent? b.id = some top := fun b hb =>
      h.parent_iff.mpr (hchildren ▸ List.mem_map_of_mem hb)
    simp only [Branch.ids, Branch.idsAll_eq]
    refine List.nodup_cons.mpr ⟨?_, List.nodup_flatMap.mpr ⟨ih, ?_⟩⟩
    · intro hin
      obtain ⟨b, hb, hin⟩ := List.mem_flatMap.mp hin
      have hw := (h.mem_ids_iff (hheld b hb) top).mp hin
      exact (h.grounded b.id).parent_not_within (hparent b hb) hw
    · have hnodup := h.children_nodup top
      rw [hchildren] at hnodup
      apply (List.pairwise_map.mp hnodup).imp_of_mem
      intro b b' hb hb' hne id hin hin'
      have hw := (h.mem_ids_iff (hheld b hb) id).mp hin
      have hw' := (h.mem_ids_iff (hheld b' hb') id).mp hin'
      exact hne (h.eq_of_within_siblings (hparent b hb) (hparent b' hb') hw hw')

end WellFormed

end Tree
end ProgramTree
