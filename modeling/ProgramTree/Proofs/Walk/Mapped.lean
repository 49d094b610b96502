import ProgramTree.Walk.Basic

/-! # Visitors that keep less

A visitor may keep just what a map leaves of the state of another one, and
answer like it. Then its walk over any branch has the same answer and the same
summary, and it ends with what the map leaves of the other state. -/

namespace ProgramTree

set_option autoImplicit false

variable {σ τ : Type}

/-- The visitor answers like the other one, and keeps what the map leaves of its state. -/
structure Visitor.Follows (v' : Visitor τ) (v : Visitor σ) (keep : σ → τ) : Prop where
  visit (site : Site) (s : σ) :
    v'.visit site (keep s) = ((v.visit site s).1, keep (v.visit site s).2)
  leave (site : Site) (s : σ) : v'.leave site (keep s) = keep (v.leave site s)

def WalkState.map (keep : σ → τ) (w : WalkState σ) : WalkState τ :=
  ⟨w.active, w.summary, keep w.visitor⟩

namespace WalkState

variable (keep : σ → τ) (w : WalkState σ) (id : NodeId)

@[simp] theorem map_active : (w.map keep).active = w.active := rfl

@[simp] theorem map_visitor : (w.map keep).visitor = keep w.visitor := rfl

@[simp] theorem map_enter : (w.map keep).enter id = (w.enter id).map keep := rfl

@[simp] theorem map_exit : (w.map keep).exit id = (w.exit id).map keep := rfl

@[simp] theorem map_skip : (w.map keep).skip = w.skip.map keep := rfl

@[simp] theorem map_withVisitor (s : σ) :
    (w.map keep).withVisitor (keep s) = (w.withVisitor s).map keep := rfl

end WalkState

section Walk

variable {v : Visitor σ} {v' : Visitor τ} {keep : σ → τ}

theorem Visitor.Follows.finish (h : v'.Follows v keep) (site : Site) (w : WalkState σ) :
    v'.finish site (w.map keep) = (v.finish site w).map keep := by
  simp only [Visitor.finish, WalkState.map, WalkState.withVisitor, WalkState.exit, h.leave]

mutual

theorem Visitor.Follows.walkBranch (h : v'.Follows v keep) (t : Tree) :
    (b : Branch) → (w : WalkState σ) → v'.walkBranch t b (w.map keep) =
      ((v.walkBranch t b w).1, (v.walkBranch t b w).2.map keep)
  | .node id payload children, w => by
    by_cases hid : id ∈ w.active
    · simp [Visitor.walkBranch, hid]
    · have hvisit := h.visit ⟨t, .node id payload children, (w.enter id).active⟩
        (w.enter id).visitor
      simp only [Visitor.walkBranch, WalkState.map_active, WalkState.map_enter,
        WalkState.map_visitor, if_neg hid, hvisit]
      generalize v.visit ⟨t, .node id payload children, (w.enter id).active⟩
        (w.enter id).visitor = result
      obtain ⟨refusal | _ | _, s⟩ := result
      · rfl
      · simp only [WalkState.map_withVisitor, h.walkAll t children]
        generalize v.walkAll t children ((w.enter id).withVisitor s) = result
        obtain ⟨e | _, w'⟩ := result
        · rfl
        · simp only [h.finish]
      · simp only [WalkState.map_withVisitor, WalkState.map_skip, h.finish]

theorem Visitor.Follows.walkAll (h : v'.Follows v keep) (t : Tree) :
    (bs : List Branch) → (w : WalkState σ) →
    v'.walkAll t bs (w.map keep) = ((v.walkAll t bs w).1, (v.walkAll t bs w).2.map keep)
  | [], _ => rfl
  | b :: bs, w => by
    rw [Visitor.walkAll, Visitor.walkAll, h.walkBranch t b w]
    rcases v.walkBranch t b w with ⟨answer, w'⟩
    cases answer with
    | error e => rfl
    | ok => exact h.walkAll t bs w'

end

/-- The walk over a node has the same answer, and what the map leaves of the other state. -/
theorem Visitor.Follows.walk (h : v'.Follows v keep) (t : Tree) (id : NodeId) (s : σ) :
    t.walk id v' (keep s) = ((t.walk id v s).1, keep (t.walk id v s).2) := by
  simp only [Tree.walk, Tree.walkFrom]
  cases t.branch? id with
  | none => rfl
  | some b =>
    have hbranch := h.walkBranch t b ⟨[], ⟨0, 0⟩, s⟩
    simp only [WalkState.map] at hbranch
    simp only [hbranch]
    generalize v.walkBranch t b ⟨[], ⟨0, 0⟩, s⟩ = result
    obtain ⟨e | _, w⟩ := result <;> rfl

end Walk

end ProgramTree
