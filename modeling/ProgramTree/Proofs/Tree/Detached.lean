import Mathlib.Logic.ExistsUnique
import ProgramTree.Proofs.Tree.Runs

/-! # What freeing leaves

The live nodes of a tree lie within the root or within one of the detached
nodes, and within one of them only. So freeing what lies within a detached node
touches nothing else, and a sweep, which frees one detached node after the
other, frees exactly what does not lie within the root. -/

namespace ProgramTree

set_option autoImplicit false

/-- The order of the slots, and of the generations in one slot. -/
def NodeId.Precedes (id other : NodeId) : Prop :=
  id.slot < other.slot ∨ id.slot = other.slot ∧ id.generation < other.generation

namespace Tree

open Edit

variable {t t' t'' : Tree} {id : NodeId}

section Partition

theorem detached_increasing : t.detached.Pairwise NodeId.Precedes :=
  (t.nodes.ids_increasing.imp Or.inl).filter _

/-- What the links lead to above a live node is alive. -/
theorem WellFormed.live_of_within (h : t.WellFormed) {top : NodeId} (hw : t.Within id top)
    (hlive : t.contains id = true) : t.contains top = true := by
  induction hw with
  | refl => exact hlive
  | step hparent _ ih => exact ih (h.parent_live hparent)

theorem Grounded.exists_top (h : t.Grounded id) :
    ∃ top, t.Within id top ∧ t.parent? top = none := by
  induction h with
  | @top id hnone => exact ⟨id, .refl id, hnone⟩
  | step hparent _ ih =>
    obtain ⟨top, hw, htop⟩ := ih
    exact ⟨top, .step hparent hw, htop⟩

/-- No node lies within two tops. -/
theorem Within.top_unique {top other : NodeId} (h : t.Within id top) (h' : t.Within id other)
    (htop : t.parent? top = none) (hother : t.parent? other = none) : top = other := by
  rcases h.comparable h' with hw | hw
  · exact within_of_parent?_eq_none htop hw
  · exact (within_of_parent?_eq_none hother hw).symm

theorem WellFormed.parent?_top (h : t.WellFormed) {top : NodeId}
    (htop : top ∈ t.root :: t.detached) : t.parent? top = none := by
  rcases List.mem_cons.mp htop with rfl | htop
  · exact h.root_top
  · exact (mem_detached_iff.mp htop).2.2

theorem Within.live {top : NodeId} (hw : t.Within id top) (hlive : t.contains top = true) :
    t.contains id = true := by
  rcases within_iff.mp hw with rfl | ⟨parent, hparent, _⟩
  · exact hlive
  · exact contains_of_parent? hparent

/-- Every live node lies within exactly one top. -/
theorem WellFormed.existsUnique_top (h : t.WellFormed) (hlive : t.contains id = true) :
    ∃! top, top ∈ t.root :: t.detached ∧ t.Within id top := by
  obtain ⟨top, hw, htop⟩ := (h.grounded id).exists_top
  have hmem : top ∈ t.root :: t.detached := by
    by_cases hroot : top = t.root
    · exact List.mem_cons.mpr (Or.inl hroot)
    · apply List.mem_cons_of_mem
      exact mem_detached_iff.mpr ⟨h.live_of_within hw hlive, hroot, htop⟩
  refine ⟨top, ⟨hmem, hw⟩, ?_⟩
  rintro other ⟨hother, hw'⟩
  exact hw'.top_unique hw (h.parent?_top hother) htop

end Partition

/-- From the first tree to the second the nodes with the property are gone, as many as counted, and
every other node is as it was. -/
structure Frees (t : Tree) (gone : NodeId → Prop) (count : Nat) (t' : Tree) : Prop where
  freed : ∀ id, gone id → t'.contains id = false
  kept : ∀ id, ¬ gone id → t'.node? id = t.node? id
  counted : count + t'.size = t.size

namespace Frees

variable {P Q : NodeId → Prop} {m n : Nat}

theorem none (t : Tree) : t.Frees (fun _ => False) 0 t where
  freed := fun _ => False.elim
  kept := fun _ _ => rfl
  counted := Nat.zero_add _

theorem trans (h : t.Frees P m t') (h' : t'.Frees Q n t'') :
    t.Frees (fun id => P id ∨ Q id) (m + n) t'' where
  freed := by
    intro id hid
    by_cases hQ : Q id
    · exact h'.freed id hQ
    · rw [(views_congr (h'.kept id hQ)).1]
      exact h.freed id (hid.resolve_right hQ)
  kept := by
    intro id hid
    rw [h'.kept id fun hQ => hid (Or.inr hQ), h.kept id fun hP => hid (Or.inl hP)]
  counted := by
    have hfirst := h.counted
    have hsecond := h'.counted
    omega

/-- Only of live nodes does it matter whether they are to go. -/
theorem congr (h : t.Frees P m t') (hiff : ∀ id, t.contains id = true → (P id ↔ Q id)) :
    t.Frees Q m t' := by
  have hdead : ∀ id, t.contains id ≠ true → t'.node? id = t.node? id := by
    intro id hid
    have hnone := (t.contains_eq_false_iff id).mp (Bool.not_eq_true _ ▸ hid)
    by_cases hP : P id
    · rw [(t'.contains_eq_false_iff id).mp (h.freed id hP), hnone]
    · exact h.kept id hP
  refine ⟨?_, ?_, h.counted⟩
  · intro id hQ
    by_cases hlive : t.contains id = true
    · exact h.freed id ((hiff id hlive).mpr hQ)
    · rw [(views_congr (hdead id hlive)).1]
      exact Bool.not_eq_true _ ▸ hlive
  · intro id hQ
    by_cases hlive : t.contains id = true
    · exact h.kept id fun hP => hQ ((hiff id hlive).mp hP)
    · exact hdead id hlive

/-- A live node of the second tree is a node of the first that was to stay. -/
theorem live (h : t.Frees P m t') (hlive : t'.contains id = true) :
    ¬ P id ∧ t.contains id = true := by
  have hstays : ¬ P id := by
    intro hP
    rw [h.freed id hP] at hlive
    cases hlive
  exact ⟨hstays, by rw [← (views_congr (h.kept id hstays)).1, hlive]⟩

/-- The links between nodes that stay lead where they led. -/
theorem within (h : t.Frees P m t') {top : NodeId} (hw : t.Within id top)
    (hstays : ∀ above, t.Within id above → ¬ P above) : t'.Within id top := by
  induction hw with
  | refl => exact .refl _
  | @step id parent top hparent _ ih =>
    have hsame := (views_congr (h.kept id (hstays id (.refl id)))).2.2.2.1
    apply Within.step (hsame.trans hparent)
    exact ih fun above habove => hstays above (.step hparent habove)

end Frees

namespace WellFormed

variable (h : t.WellFormed)
include h

/-- Freeing the branch of a node frees what lies within the node. -/
theorem frees_freeBranch (hlive : t.contains id = true) :
    t.Frees (t.Within · id) (t.freeBranch id).1 (t.freeBranch id).2 := by
  obtain ⟨b, _, rfl, held⟩ := h.exists_branch? hlive
  obtain ⟨hcount, hnode⟩ := h.freeBranch_of_held held
  refine ⟨?_, ?_, ?_⟩
  · intro id hw
    rw [contains_eq_false_iff, hnode, if_pos ((h.mem_ids_iff held id).mpr hw)]
  · intro id hout
    rw [hnode, if_neg fun hin => hout ((h.mem_ids_iff held id).mp hin)]
  · have hstays : ∀ id, id ∈ (t.freeBranch b.id).2.nodes.ids ↔
        id ∉ b.ids ∧ t.contains id = true := by
      intro id
      rw [mem_nodes_ids_iff, contains_iff, contains_iff, hnode]
      by_cases hin : id ∈ b.ids <;> simp [hin]
    have hnodup : (b.ids ++ (t.freeBranch b.id).2.nodes.ids).Nodup := by
      apply (h.nodup_ids held).append (Arena.ids_nodup _)
      exact fun id hin hid => ((hstays id).mp hid).1 hin
    have hall : ∀ id, id ∈ b.ids ++ (t.freeBranch b.id).2.nodes.ids ↔ t.contains id = true := by
      intro id
      rw [List.mem_append, hstays]
      by_cases hin : id ∈ b.ids
      · have hid := ((h.mem_ids_iff held id).mp hin).live held.live
        simp [hin, hid]
      · simp [hin]
    calc
      (t.freeBranch b.id).1 + (t.freeBranch b.id).2.size
          = (b.ids ++ (t.freeBranch b.id).2.nodes.ids).length := by
            rw [hcount, List.length_append]
            rfl
      _ = t.size := t.length_eq_size hnodup hall

/-- Freeing one top after the other frees what lies within them. -/
theorem frees_freeTops (tops : List NodeId) (count : Nat) (hnodup : tops.Nodup)
    (htops : ∀ id ∈ tops, t.contains id = true ∧ id ≠ t.root ∧ t.parent? id = none) :
    ∃ freed, (Tree.freeTops (count, t) tops).1 = count + freed ∧
      t.Frees (fun id => ∃ top ∈ tops, t.Within id top) freed
        (Tree.freeTops (count, t) tops).2 := by
  induction tops generalizing t count with
  | nil => exact ⟨0, rfl, (Frees.none t).congr (by simp)⟩
  | cons top tops ih =>
    obtain ⟨⟨hlive, hroot, htop⟩, hrest⟩ := List.forall_mem_cons.mp htops
    obtain ⟨hnotin, hnodup⟩ := List.nodup_cons.mp hnodup
    have hfirst := h.frees_freeBranch hlive
    have hapart : ∀ {id other}, other ∈ tops → t.Within id other → ¬ t.Within id top := by
      intro id other hother hw hw'
      have hsame := hw.top_unique hw' (hrest other hother).2.2 htop
      exact hnotin (hsame ▸ hother)
    have hrest' : ∀ id ∈ tops, (t.freeBranch top).2.contains id = true ∧
        id ≠ (t.freeBranch top).2.root ∧ (t.freeBranch top).2.parent? id = none := by
      intro id hid
      obtain ⟨hcontains, _, _, hparent, _⟩ := views_congr (hfirst.kept id (hapart hid (.refl id)))
      rw [hcontains, hparent, root_freeBranch]
      exact hrest id hid
    obtain ⟨freed, hcount, hfrees⟩ := ih (h.freeBranch hlive htop hroot)
      (count + (t.freeBranch top).1) hnodup hrest'
    rw [freeTops_cons]
    refine ⟨(t.freeBranch top).1 + freed, by rw [hcount, Nat.add_assoc], ?_⟩
    apply (hfirst.trans hfrees).congr
    intro id _
    rw [List.exists_mem_cons_iff]
    apply or_congr_right
    constructor
    · rintro ⟨other, hother, hw⟩
      exact ⟨other, hother, hw.mono fun _ _ hparent =>
        ((h.parent?_freeBranch hlive).mp hparent).1⟩
    · rintro ⟨other, hother, hw⟩
      refine ⟨other, hother, hfirst.within hw ?_⟩
      exact fun above habove hw' => hapart hother hw (habove.trans hw')

/-- A sweep frees what does not lie within the root. -/
theorem frees_sweep : t.Frees (fun id => ¬ t.Within id t.root) t.sweep.1 t.sweep.2 := by
  have hnodup : t.detached.Nodup := t.nodes.ids_nodup.filter _
  obtain ⟨freed, hcount, hfrees⟩ :=
    h.frees_freeTops t.detached 0 hnodup fun _ => mem_detached_iff.mp
  rw [sweep_eq, hcount, Nat.zero_add]
  apply hfrees.congr
  intro id hlive
  obtain ⟨top, ⟨hmem, hw⟩, hunique⟩ := h.existsUnique_top hlive
  constructor
  · rintro ⟨other, hother, hw'⟩ hroot
    have hsame := hw'.top_unique hroot (mem_detached_iff.mp hother).2.2 h.root_top
    exact (mem_detached_iff.mp hother).2.1 hsame
  · intro hout
    rcases List.mem_cons.mp hmem with rfl | hmem
    · exact absurd hw hout
    · exact ⟨top, hmem, hw⟩

theorem detached_sweep : t.sweep.2.detached = [] := by
  apply List.eq_nil_iff_forall_not_mem.mpr
  intro id hid
  obtain ⟨hlive, hroot, htop⟩ := mem_detached_iff.mp hid
  obtain ⟨hin, _⟩ := h.frees_sweep.live hlive
  have hin := Classical.not_not.mp hin
  have hsame := h.frees_sweep.kept id (Classical.not_not.mpr hin)
  rw [(views_congr hsame).2.2.2.1] at htop
  rw [root_sweep] at hroot
  exact hroot (within_of_parent?_eq_none htop hin)

theorem outcome_snapshotOf (hlive : t.contains id = true) :
    ∃ b : Branch, b.id = id ∧ b.HeldBy t ∧ (snapshotOf id).outcome t = (.ok b.snapshot, t) := by
  obtain ⟨b, hb, hid, held⟩ := h.exists_branch? hlive
  refine ⟨b, hid, held, ?_⟩
  rw [snapshotOf, outcome_bind_of_ok (outcome_get t), snapshot?, hb]
  rfl

/-- A tree without detached nodes is as large as the snapshot of its root. -/
theorem size_of_detached_eq_nil (hnone : t.detached = []) :
    ∃ snapshot, (snapshotOf t.root).outcome t = (.ok snapshot, t) ∧ t.size = snapshot.size := by
  obtain ⟨b, hroot, held, hsnapshot⟩ := h.outcome_snapshotOf h.root_live
  refine ⟨b.snapshot, hsnapshot, ?_⟩
  rw [← Branch.length_ids]
  apply (t.length_eq_size (h.nodup_ids held) _).symm
  intro id
  rw [h.mem_ids_iff held, hroot]
  constructor
  · exact fun hw => hw.live h.root_live
  · intro hlive
    obtain ⟨top, ⟨hmem, hw⟩, _⟩ := h.existsUnique_top hlive
    rw [hnone, List.mem_singleton] at hmem
    exact hmem ▸ hw

end WellFormed

/-- In every tree that a run leads to, every live node lies within the root or within exactly one of
the detached nodes, which are listed in increasing order. Discarding one of these frees what lies
within it, as many nodes as its snapshot has, and nothing else. A sweep frees what does not lie
within the root and nothing else, and leaves nothing to a second one. -/
theorem reachable_freed_exactly (h : t.Reachable) :
    (∀ id, t.contains id = true → ∃! top, top ∈ t.root :: t.detached ∧ t.Within id top) ∧
    t.detached.Pairwise NodeId.Precedes ∧
    (∀ id ∈ t.detached, ∃ snapshot t', (snapshotOf id).outcome t = (.ok snapshot, t) ∧
      (discard id).outcome t = (.ok snapshot.size, t') ∧
      t.Frees (t.Within · id) snapshot.size t') ∧
    (t.Frees (fun id => ¬ t.Within id t.root) t.sweep.1 t.sweep.2 ∧ t.sweep.2.detached = [] ∧
      (∃ snapshot, (snapshotOf t.root).outcome t.sweep.2 = (.ok snapshot, t.sweep.2) ∧
        t.sweep.2.size = snapshot.size) ∧
      t.sweep.2.sweep = (0, t.sweep.2)) := by
  have hwf := h.wellFormed
  refine ⟨fun id => hwf.existsUnique_top, detached_increasing, ?_, hwf.frees_sweep,
    hwf.detached_sweep, ?_, ?_⟩
  · intro id hid
    have hdetached := mem_detached_iff.mp hid
    obtain ⟨b, rfl, held, hsnapshot⟩ := hwf.outcome_snapshotOf hdetached.1
    have hcount : (t.freeBranch b.id).1 = b.snapshot.size :=
      (hwf.freeBranch_of_held held).1.trans b.length_ids
    refine ⟨b.snapshot, (t.freeBranch b.id).2, hsnapshot, ?_, ?_⟩
    · rw [(decides_discard b.id).accept hdetached, hcount]
    · rw [← hcount]
      exact hwf.frees_freeBranch hdetached.1
  · have hsize := hwf.sweep.size_of_detached_eq_nil hwf.detached_sweep
    rwa [root_sweep] at hsize
  · rw [sweep_eq t.sweep.2, hwf.detached_sweep]
    rfl

/-- A function with a block in it, beside the root and a comment. -/
theorem swept_function_freed_exactly :
    ∃ t : Tree, t.Reachable ∧ t.detached = [⟨1, 0⟩, ⟨3, 0⟩] ∧ t.sweep.1 + t.sweep.2.size = 4 ∧
      t.sweep.2.detached = [] ∧ t.sweep.2.sweep.1 = 0 := by
  have hreach : (((((new none).after (.create (.function "f" [] []))).after
      (.create .block)).after (.appendChild ⟨1, 0⟩ ⟨2, 0⟩)).after
      (.create (.comment "c"))).Reachable :=
    .after _ (fun _ _ => trivial) (.after _ (fun _ _ => trivial) (.after _ (fun _ _ => trivial)
      (.after _ (fun _ _ => trivial) (.new none trivial))))
  obtain ⟨_, _, _, hfrees, hnone, _, hagain⟩ := reachable_freed_exactly hreach
  exact ⟨_, hreach, by decide, hfrees.counted, hnone, by rw [hagain]⟩

end Tree
end ProgramTree
