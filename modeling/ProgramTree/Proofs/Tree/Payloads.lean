import ProgramTree.Proofs.Tree.Runs

/-! # Payloads along a run

An operation brings in at most one payload, and otherwise a node keeps the one
that it has. So a run that brings in only admissible payloads leads to a tree
that holds only admissible ones, detached nodes included. -/

namespace ProgramTree.Tree

set_option autoImplicit false

variable {t : Tree} {id : NodeId} {payload : Payload}

theorem payload?_of_free (freed : NodeId) (h : (t.free freed).payload? id = some payload) :
    t.payload? id = some payload := by
  simp only [payload?, node?_free] at h
  split at h
  · cases h
  · exact h

theorem payload?_of_freeBranch (top : NodeId)
    (h : (t.freeBranch top).2.payload? id = some payload) : t.payload? id = some payload :=
  freeStack_keeps (P := fun t' => t'.payload? id = some payload → t.payload? id = some payload)
    (fun _ freed ih h => ih (payload?_of_free freed h)) t [top] (fun h => h) h

theorem payload?_of_sweep (h : t.sweep.2.payload? id = some payload) :
    t.payload? id = some payload :=
  sweep_keeps (P := fun t' => t'.payload? id = some payload → t.payload? id = some payload)
    (fun _ freed ih h => ih (payload?_of_free freed h)) t (fun h => h) h

/-- After an operation a node has the payload that it had, or the one brought in. A node that was
live before keeps its kind. -/
theorem payload?_of_after (hwf : t.WellFormed) (operation : Operation)
    (h : (t.after operation).payload? id = some payload) :
    t.payload? id = some payload ∨ operation.payload? = some payload ∧
      (t.contains id = true → t.kind? id = some payload.kind) := by
  have heffect := hwf.effect operation
  generalize t.after operation = t' at heffect h
  cases heffect with
  | refused => exact Or.inl h
  | created brought =>
    rw [payload?_create hwf.sound] at h
    split at h
    · rename_i hfresh
      refine Or.inr ⟨h, fun hlive => ?_⟩
      exact absurd hfresh (ne_create_of_live hwf.sound brought hlive)
    · exact Or.inl h
  | inserted | appended | removed | replaced | moved => exact Or.inl (by simpa using h)
  | updated hkind =>
    rw [payload?_setPayload _ _ (contains_of_kind? hkind)] at h
    split at h
    · rename_i he
      refine Or.inr ⟨h, fun _ => ?_⟩
      cases h
      rw [he, hkind]
    · exact Or.inl h
  | discarded => exact Or.inl (payload?_of_freeBranch _ h)
  | swept => exact Or.inl (payload?_of_sweep h)

/-- A run that brings in only admissible payloads leads to a tree that holds only those. -/
theorem ReachableWith.admissible {admissible : Payload → Prop}
    (h : t.ReachableWith admissible) (hpayload : t.payload? id = some payload) :
    admissible payload := by
  induction h generalizing id payload with
  | new package hpackage =>
    simp only [payload?, node?_new] at hpayload
    split at hpayload
    · cases hpayload
      exact hpackage
    · cases hpayload
  | after operation hbrought hreach ih =>
    rcases payload?_of_after hreach.reachable.wellFormed operation hpayload with hold | hnew
    · exact ih hold
    · exact hbrought payload hnew.1

theorem root_after (hwf : t.WellFormed) (operation : Operation) :
    (t.after operation).root = t.root :=
  (hwf.effect operation).keeps (P := fun t' => t'.root = t.root) (fun _ h => h)
    (fun _ _ _ h => h) (fun _ _ h => h) rfl

theorem Reachable.kind?_root (h : t.Reachable) : t.kind? t.root = some .compilationUnit := by
  induction h with
  | new package _ => simp [kind?, payload?, node?_new, Payload.kind]
  | @after t operation hbrought hreach ih =>
    have hwf := Reachable.wellFormed hreach
    obtain ⟨payload, hpayload, _⟩ := node?_eq_some (hwf.after operation).root_live
    rw [kind?, hpayload, Option.map_some]
    rw [root_after hwf] at hpayload
    rcases payload?_of_after hwf operation hpayload with hold | ⟨_, hkind⟩
    · rwa [kind?, hold, Option.map_some] at ih
    · rw [← hkind hwf.root_live, ih]

end ProgramTree.Tree
