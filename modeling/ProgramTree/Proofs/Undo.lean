import ProgramTree.Proofs.Document
import ProgramTree.Proofs.Tree.Undo

/-! # Taking edits back

The change that an edit is announced with names the request that takes it back.
Only an update needs more than its change, namely the payload that it took away,
which is in its answer. Made next, the inverse request is never refused, and the
tree is then the one from before the edit. -/

namespace ProgramTree

set_option autoImplicit false

open Edit

/-- An edit that is announced, as it is asked for. -/
inductive Request
  | insertChild (parent : NodeId) (index : Nat) (node : NodeId)
  | appendChild (parent node : NodeId)
  | removeChild (parent : NodeId) (index : Nat)
  | replaceChild (parent : NodeId) (index : Nat) (node : NodeId)
  | moveChild (fromParent : NodeId) (fromIndex : Nat) (toParent : NodeId) (toIndex : Nat)
  | update (node : NodeId) (payload : Payload)

/-- The change that was made, and the payload that was taken away, if one was. -/
structure Done where
  change : Change
  taken : Option Payload

def Done.ofChange (change : Change) : Done :=
  ⟨change, none⟩

/-- The request that takes back what was done. -/
def Done.inverse? (done : Done) : Option Request :=
  match done.change with
  | .inserted parent index _ => some (.removeChild parent index)
  | .removed parent index node => some (.insertChild parent index node)
  | .replaced parent index old _ => some (.replaceChild parent index old)
  | .moved _ fromParent fromIndex toParent toIndex =>
    some (.moveChild toParent toIndex fromParent fromIndex)
  | .updated node => done.taken.map (.update node)

namespace Document

/-- Reads the answer of an edit. -/
def reading {α : Type} (f : α → Done) :
    Except EditError α × Document → Except EditError Done × Document :=
  Prod.map (Except.map f) id

/-- Makes a request of a document. -/
def request (d : Document) : Request → Except EditError Done × Document
  | .insertChild parent index node => reading .ofChange (d.insertChild parent index node)
  | .appendChild parent node => reading .ofChange (d.appendChild parent node)
  | .removeChild parent index => reading .ofChange (d.removeChild parent index)
  | .replaceChild parent index node => reading .ofChange (d.replaceChild parent index node)
  | .moveChild fromParent fromIndex toParent toIndex =>
    reading .ofChange (d.moveChild fromParent fromIndex toParent toIndex)
  | .update node payload =>
    reading (fun (old, change) => ⟨change, some old⟩) (d.update node payload)

section Perform

variable {α : Type} {d d' : Document} {x : Edit α} {condition : Prop} {a : α} {t' : Tree}

/-- A request that was granted, read off what decides its edit. -/
theorem granted (hx : x.Decides d.tree condition a t') {change : α → Change} {f : α → Done}
    {done : Done} (h : reading f (d.perform x change) = (.ok done, d')) :
    condition ∧ done = f a ∧ d' = d.changed t' (change a) := by
  rcases hx.cases with ⟨hcondition, hok⟩ | ⟨_, e, herror⟩
  · rw [perform_of_ok hok] at h
    cases h
    exact ⟨hcondition, rfl, rfl⟩
  · rw [perform_of_error herror] at h
    cases h

end Perform

/-- The change was announced, and the request that takes it back is granted and restores the
tree. -/
structure TakenBack (d : Document) (done : Done) (d' : Document) : Prop where
  announced : d' = d.changed d'.tree done.change
  restored : ∃ inverse answer d'', done.inverse? = some inverse ∧
    d'.request inverse = (.ok answer, d'') ∧ d''.tree = d.tree

theorem takenBack_of_outcome {α : Type} {d : Document} {done : Done} {t' : Tree}
    {inverse : Request} {x : Edit α} {a : α} {change : α → Change} {f : α → Done}
    (hinverse : done.inverse? = some inverse)
    (hrequest : ∀ d', request d' inverse = reading f (d'.perform x change))
    (hundo : x.outcome t' = (.ok a, d.tree)) :
    d.TakenBack done (d.changed t' done.change) := by
  have hperform : (d.changed t' done.change).perform x change =
      (.ok a, (d.changed t' done.change).changed d.tree (change a)) := perform_of_ok hundo change
  refine ⟨rfl, inverse, f a, (d.changed t' done.change).changed d.tree (change a), hinverse, ?_,
    rfl⟩
  rw [hrequest, hperform]
  rfl

/-- Every edit can be taken back next by the request that its change names: the answer holds
what the request needs, the request is granted, and the tree is again the one from before. -/
theorem request_takenBack {d d' : Document} {r : Request} {done : Done} (h : d.Reachable)
    (hdone : d.request r = (.ok done, d')) : d.TakenBack done d' := by
  have hwf := h.tree.wellFormed
  cases r with
  | insertChild parent index node =>
    obtain ⟨can, rfl, rfl⟩ := granted (Tree.decides_insertChild hwf parent index node) hdone
    exact takenBack_of_outcome rfl (fun _ => rfl) (Tree.undo_insertChild hwf can)
  | appendChild parent node =>
    obtain ⟨can, rfl, rfl⟩ := granted (Tree.decides_appendChild hwf parent node) hdone
    exact takenBack_of_outcome rfl (fun _ => rfl) (Tree.undo_insertChild hwf can)
  | removeChild parent index =>
    obtain ⟨node, hplace⟩ := d.tree.exists_place parent index
    obtain ⟨hnode, rfl, rfl⟩ :=
      granted (Tree.decides_removeChild hwf parent index node hplace) hdone
    exact takenBack_of_outcome rfl (fun _ => rfl) (Tree.undo_removeChild hwf hnode)
  | replaceChild parent index node =>
    obtain ⟨old, hplace⟩ := d.tree.exists_place parent index
    obtain ⟨can, rfl, rfl⟩ :=
      granted (Tree.decides_replaceChild hwf parent index old node hplace) hdone
    exact takenBack_of_outcome rfl (fun _ => rfl) (Tree.undo_replaceChild hwf can)
  | moveChild fromParent fromIndex toParent toIndex =>
    obtain ⟨node, hplace⟩ := d.tree.exists_place fromParent fromIndex
    obtain ⟨can, rfl, rfl⟩ := granted
      (Tree.decides_moveChild hwf fromParent fromIndex toParent toIndex node hplace) hdone
    exact takenBack_of_outcome rfl (fun _ => rfl) (Tree.undo_moveChild hwf can)
  | update node payload =>
    cases hold : d.tree.payload? node with
    | some old =>
      obtain ⟨hkind, rfl, rfl⟩ := granted (Tree.decides_update node old payload (Or.inl hold)) hdone
      exact takenBack_of_outcome rfl (fun _ => rfl) (Tree.undo_update hold hkind)
    | none =>
      obtain ⟨hkind, _, _⟩ :=
        granted (Tree.decides_update node payload payload (Or.inr hold)) hdone
      simp [Tree.kind?, hold] at hkind

/-- Two functions of one unit that change places. -/
theorem exchanged_functions_takenBack :
    ∃ d d' : Document, d.Reachable ∧
      d.request (.moveChild ⟨0, 0⟩ 0 ⟨0, 0⟩ 1) =
        (.ok ⟨.moved ⟨1, 0⟩ ⟨0, 0⟩ 0 ⟨0, 0⟩ 1, none⟩, d') ∧
      d.TakenBack ⟨.moved ⟨1, 0⟩ ⟨0, 0⟩ 0 ⟨0, 0⟩ 1, none⟩ d' := by
  have hreach : (((((ofTree (.new none)).after (.operation (.create (.function "f" [] [])))).after
      (.operation (.create (.function "g" [] [])))).after
      (.operation (.appendChild ⟨0, 0⟩ ⟨1, 0⟩))).after
      (.operation (.appendChild ⟨0, 0⟩ ⟨2, 0⟩))).Reachable :=
    .after _ (.after _ (.after _ (.after _ (.new none))))
  refine ⟨_, _, hreach, rfl, ?_⟩
  exact request_takenBack (r := .moveChild ⟨0, 0⟩ 0 ⟨0, 0⟩ 1) hreach rfl

end Document
end ProgramTree
