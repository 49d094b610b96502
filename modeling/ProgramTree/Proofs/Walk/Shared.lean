import ProgramTree.Proofs.Walk.Nested
import ProgramTree.Walk.Shared

/-! # What sharing the nodes in progress changes

Nothing: a walk leaves the nodes in progress as it found them, whatever its
handlers do in between. So a handler that runs on the shared nodes does what it
would do if each walk that it starts were given them, and the walk around it
goes on with the nodes that it had. -/

namespace ProgramTree

set_option autoImplicit false

variable {σ : Type}

/-- The handlers do what the visitor does, and leave the nodes in progress as they find them. -/
structure SharingVisitor.Restores (u : SharingVisitor σ) (v : Visitor σ) : Prop where
  visit : ∀ site s, u.visit site s site.active =
    ((v.visit site s).1, (v.visit site s).2, site.active)
  leave : ∀ site s, u.leave site s site.active = (v.leave site s, site.active)

namespace SharingVisitor.Restores

variable {u : SharingVisitor σ} {v : Visitor σ} (t : Tree)

theorem finish (h : u.Restores v) {site : Site} {w : WalkState σ}
    (hactive : w.active = site.active) :
    u.finish site w = v.finish site w := by
  obtain ⟨active, summary, s⟩ := w
  obtain rfl : active = site.active := hactive
  simp only [SharingVisitor.finish, h.leave]
  rfl

mutual

theorem walkBranch (h : u.Restores v) : (b : Branch) → (w : WalkState σ) →
    u.walkBranch t b w = v.walkBranch t b w
  | .node id payload children, w => by
    rw [SharingVisitor.walkBranch, Visitor.walkBranch]
    split
    · rfl
    · have hvisit :=
        h.visit ⟨t, .node id payload children, (w.enter id).active⟩ (w.enter id).visitor
      dsimp only at hvisit ⊢
      rw [hvisit]
      rcases v.visit ⟨t, .node id payload children, (w.enter id).active⟩ (w.enter id).visitor with
        ⟨refusal | flow, s⟩
      · rfl
      · cases flow with
        | skipChildren => exact congrArg (Prod.mk _) (h.finish rfl)
        | proceed =>
          have hactive := active_walkAll v t children ((w.enter id).withVisitor s)
          have hchildren := walkAll h children ((w.enter id).withVisitor s)
          dsimp only
          rw [show (w.enter id).resumed s (w.enter id).active = (w.enter id).withVisitor s from rfl,
            hchildren]
          rcases hw : v.walkAll t children ((w.enter id).withVisitor s) with ⟨_ | _, w'⟩
          · rfl
          · rw [hw] at hactive
            exact congrArg (Prod.mk _) (h.finish hactive)

theorem walkAll (h : u.Restores v) : (bs : List Branch) → (w : WalkState σ) →
    u.walkAll t bs w = v.walkAll t bs w
  | [], w => rfl
  | b :: bs, w => by
    rw [SharingVisitor.walkAll, Visitor.walkAll, walkBranch h b w]
    rcases v.walkBranch t b w with ⟨_ | _, w'⟩
    · rfl
    · exact walkAll h bs w'

end

theorem walkSharing (h : u.Restores v) (active : List NodeId) (start : NodeId) (s : σ) :
    t.walkSharing active start u s = t.walkFrom active start v s := by
  rw [Tree.walkSharing, Tree.walkFrom]
  cases t.branch? start with
  | none => rfl
  | some b =>
    rcases hbranch : v.walkBranch t b ⟨active, ⟨0, 0⟩, s⟩ with ⟨_ | _, w⟩ <;>
      simp only [h.walkBranch t, hbranch]

end SharingVisitor.Restores

/-- A handler leaves the shared nodes in progress as it finds them, and otherwise does what it would
do if it gave them to the walks that it starts. -/
theorem Handling.sharing_eq (t : Tree) {α : Type} (handling : Handling σ α) (active : List NodeId) :
    handling.sharing t active =
      ((handling.giving t active).1, (handling.giving t active).2, active) := by
  induction handling generalizing active with
  | answer a s => rfl
  | walk start visit leave s next ihVisit ihLeave ihNext =>
    have hrestores : SharingVisitor.Restores
        ⟨fun site s => (visit site s).sharing t,
          fun site s active => ((leave site s).sharing t active).2⟩
        ⟨fun site s => (visit site s).giving t site.active,
          fun site s => ((leave site s).giving t site.active).2⟩ := by
      refine ⟨fun site s => ihVisit site s site.active, fun site s => ?_⟩
      simp only [ihLeave]
    have hactive := Tree.active_walkFrom ⟨fun site s => (visit site s).giving t site.active,
      fun site s => ((leave site s).giving t site.active).2⟩ t active start s
    rw [Handling.sharing, Handling.giving, hrestores.walkSharing]
    generalize t.walkFrom active start _ s = r at hactive ⊢
    obtain ⟨outcome, w⟩ := r
    rw [← hactive]
    exact ihNext outcome w.visitor w.active

end ProgramTree
