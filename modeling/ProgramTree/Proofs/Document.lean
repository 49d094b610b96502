import ProgramTree.Document
import ProgramTree.Proofs.Tree.Runs

/-! # Runs of a document

A document does to its tree what the tree operations do, and beside that keeps
its subscriptions, which are listed in the order in which they were made. An
edit settles a document: it is refused and nothing at all has changed, or it is
done and each subscription has been notified of the change and was shown the
tree that the edit left. -/

namespace ProgramTree.Document

set_option autoImplicit false

open Edit

inductive Action
  | operation (operation : Tree.Operation)
  | subscribe
  | unsubscribe (s : Subscription)

/-- The document after an action, whether it succeeded or not. -/
def after (d : Document) : Action → Document
  | .operation (.create payload) => (d.create payload).2
  | .operation (.insertChild parent index node) => (d.insertChild parent index node).2
  | .operation (.appendChild parent node) => (d.appendChild parent node).2
  | .operation (.removeChild parent index) => (d.removeChild parent index).2
  | .operation (.replaceChild parent index node) => (d.replaceChild parent index node).2
  | .operation (.moveChild fromParent fromIndex toParent toIndex) =>
    (d.moveChild fromParent fromIndex toParent toIndex).2
  | .operation (.update node payload) => (d.update node payload).2
  | .operation (.discard node) => (d.discard node).2
  | .operation .sweep => d.sweep.2
  | .subscribe => d.subscribe.2
  | .unsubscribe s => (d.unsubscribe s).2

/-- The documents that runs lead to. -/
inductive Reachable : Document → Prop
  | new (package : Option String) : Reachable (ofTree (.new package))
  | after {d : Document} (action : Action) : Reachable d → Reachable (d.after action)

/-- The result of an edit that was refused and changed nothing, or was done and announced. -/
def Settles {α : Type} (d : Document) (change : α → Change) :
    Except EditError α × Document → Prop
  | (.error _, d') => d' = d
  | (.ok a, d') =>
    d'.subscriptions = d.subscriptions ∧ d'.nextNumber = d.nextNumber ∧
      d'.notifications =
        d.notifications ++ d.subscriptions.map fun s => ⟨s, change a, d'.tree⟩

namespace Settles

variable {α : Type} {d : Document} {change : α → Change} {result : Except EditError α × Document}

theorem unchanged (h : d.Settles change result) {e : EditError} (herror : result.1 = .error e) :
    result.2 = d := by
  obtain ⟨answer, d'⟩ := result
  cases herror
  exact h

theorem notified (h : d.Settles change result) {a : α} (hok : result.1 = .ok a) :
    result.2.notifications =
      d.notifications ++ d.subscriptions.map fun s => ⟨s, change a, result.2.tree⟩ := by
  obtain ⟨answer, d'⟩ := result
  cases hok
  exact h.2.2

end Settles

/-! ## Announcements -/

/-- The document after a change, with every subscription notified of it. -/
def changed (d : Document) (t' : Tree) (change : Change) : Document :=
  { d with
    tree := t'
    notifications := d.notifications ++ d.subscriptions.map (⟨·, change, t'⟩) }

theorem foldl_notify (change : Change) (listeners : List Subscription) (d : Document) :
    listeners.foldl (notify change) d =
      { d with notifications := d.notifications ++ listeners.map (⟨·, change, d.tree⟩) } := by
  induction listeners generalizing d with
  | nil => simp
  | cons s listeners ih =>
    rw [List.foldl_cons, ih]
    simp [notify]

/-- It makes no difference that the listeners are away while they are called. -/
theorem announce_eq (d : Document) (change : Change) :
    d.announce change = d.changed d.tree change := by
  rw [announce, foldl_notify]
  rfl

/-! ## Edits -/

section Run

variable {α : Type} {d : Document} {x : Edit α} {condition : Prop} {a : α} {t' : Tree}

theorem run_eq (d : Document) (x : Edit α) :
    d.run x = ((x.outcome d.tree).1, { d with tree := (x.outcome d.tree).2 }) := rfl

theorem perform_of_ok (h : x.outcome d.tree = (.ok a, t')) (change : α → Change) :
    d.perform x change = (.ok a, d.changed t' (change a)) := by
  rw [perform, run_eq, h]
  simp only [announce_eq]
  rfl

theorem perform_of_error {e : EditError} (h : x.outcome d.tree = (.error e, t'))
    (change : α → Change) : d.perform x change = (.error e, { d with tree := t' }) := by
  rw [perform, run_eq, h]

theorem tree_perform (d : Document) (x : Edit α) (change : α → Change) :
    (d.perform x change).2.tree = (x.outcome d.tree).2 := by
  cases houtcome : x.outcome d.tree with
  | mk answer t' =>
    cases answer with
    | ok a => rw [perform_of_ok houtcome, changed]
    | error e => rw [perform_of_error houtcome]

theorem subscriptions_perform (d : Document) (x : Edit α) (change : α → Change) :
    (d.perform x change).2.subscriptions = d.subscriptions ∧
      (d.perform x change).2.nextNumber = d.nextNumber := by
  cases houtcome : x.outcome d.tree with
  | mk answer t' =>
    cases answer with
    | ok a =>
      rw [perform_of_ok houtcome]
      exact ⟨rfl, rfl⟩
    | error e =>
      rw [perform_of_error houtcome]
      exact ⟨rfl, rfl⟩

theorem condition_of_perform {change : α → Change} {b : α}
    (hok : (d.perform x change).1 = .ok b) (hx : x.Decides d.tree condition a t') : condition := by
  rcases hx.cases with ⟨hcondition, _⟩ | ⟨_, e, herror⟩
  · exact hcondition
  · rw [perform_of_error herror] at hok
    cases hok

/-- An edit that is decided in one step is settled in the document. -/
theorem settles_perform (hx : x.Decides d.tree condition a t') (change : α → Change) :
    d.Settles change (d.perform x change) := by
  rcases hx.cases with ⟨_, hok⟩ | ⟨_, e, herror⟩
  · rw [perform_of_ok hok]
    exact ⟨rfl, rfl, rfl⟩
  · rw [perform_of_error herror]
    rfl

end Run

theorem tree_after_operation (d : Document) (operation : Tree.Operation) :
    (d.after (.operation operation)).tree = d.tree.after operation := by
  cases operation with
  | create | discard | sweep => rfl
  | insertChild | appendChild | removeChild | replaceChild | moveChild | update =>
    exact tree_perform _ _ _

theorem subscriptions_after_operation (d : Document) (operation : Tree.Operation) :
    (d.after (.operation operation)).subscriptions = d.subscriptions ∧
      (d.after (.operation operation)).nextNumber = d.nextNumber := by
  cases operation with
  | create | discard | sweep => exact ⟨rfl, rfl⟩
  | insertChild | appendChild | removeChild | replaceChild | moveChild | update =>
    exact subscriptions_perform _ _ _

namespace Reachable

variable {d : Document}

theorem tree (h : d.Reachable) : d.tree.Reachable := by
  induction h with
  | new package => exact .new package trivial
  | @after d action _ ih =>
    cases action with
    | operation operation =>
      rw [tree_after_operation]
      exact .after operation (fun _ _ => trivial) ih
    | subscribe => exact ih
    | unsubscribe s => exact ih

/-- A run is a list of actions, each on the document that the one before it leaves. -/
theorem run (h : d.Reachable) (actions : List Action) :
    (actions.foldl Document.after d).Reachable := by
  induction actions generalizing d with
  | nil => exact h
  | cons action _ ih => exact ih (.after action h)

/-- Subscriptions are listed in the order of their numbers, all of which have been given. -/
theorem subscriptions_ordered (h : d.Reachable) :
    d.subscriptions.Pairwise (fun s s' => s.number < s'.number) ∧
      ∀ s ∈ d.subscriptions, s.number < d.nextNumber := by
  induction h with
  | new package => exact ⟨.nil, by simp [ofTree]⟩
  | @after d action _ ih =>
    obtain ⟨hordered, hgiven⟩ := ih
    cases action with
    | operation operation =>
      obtain ⟨hsubscriptions, hnumber⟩ := d.subscriptions_after_operation operation
      rw [hsubscriptions, hnumber]
      exact ⟨hordered, hgiven⟩
    | subscribe =>
      refine ⟨List.pairwise_append.mpr ⟨hordered, List.pairwise_singleton _ _, ?_⟩, ?_⟩
      · intro s hs s' hs'
        rw [List.mem_singleton.mp hs']
        exact hgiven s hs
      · intro s hs
        rcases List.mem_append.mp hs with hs | hs
        · exact Nat.lt_succ_of_lt (hgiven s hs)
        · rw [List.mem_singleton.mp hs]
          exact Nat.lt_succ_self _
    | unsubscribe s =>
      exact ⟨hordered.filter _, fun s' hs' => hgiven s' (List.mem_filter.mp hs').1⟩

end Reachable

/-- Every edit is refused and changes nothing, or is done and announced to each subscription once,
in the order of subscribing. A discard that is refused changes nothing either. -/
theorem edits_settle {d : Document} (h : d.Reachable) :
    d.subscriptions.Pairwise (fun s s' => s.number < s'.number) ∧
    (∀ parent index node, d.Settles id (d.insertChild parent index node)) ∧
    (∀ parent node, d.Settles id (d.appendChild parent node)) ∧
    (∀ parent index, d.Settles id (d.removeChild parent index)) ∧
    (∀ parent index node, d.Settles id (d.replaceChild parent index node)) ∧
    (∀ fromParent fromIndex toParent toIndex,
      d.Settles id (d.moveChild fromParent fromIndex toParent toIndex)) ∧
    (∀ node payload, d.Settles Prod.snd (d.update node payload)) ∧
    (∀ node e, (d.discard node).1 = .error e → (d.discard node).2 = d) := by
  have hwf := h.tree.wellFormed
  refine ⟨h.subscriptions_ordered.1, ?_, ?_, ?_, ?_, ?_, ?_, ?_⟩
  · intro parent index node
    exact settles_perform (Tree.decides_insertChild hwf parent index node) id
  · intro parent node
    exact settles_perform (Tree.decides_appendChild hwf parent node) id
  · intro parent index
    obtain ⟨node, hplace⟩ := d.tree.exists_place parent index
    exact settles_perform (Tree.decides_removeChild hwf parent index node hplace) id
  · intro parent index node
    obtain ⟨old, hplace⟩ := d.tree.exists_place parent index
    exact settles_perform (Tree.decides_replaceChild hwf parent index old node hplace) id
  · intro fromParent fromIndex toParent toIndex
    obtain ⟨node, hplace⟩ := d.tree.exists_place fromParent fromIndex
    exact settles_perform
      (Tree.decides_moveChild hwf fromParent fromIndex toParent toIndex node hplace) id
  · intro node payload
    cases hold : d.tree.payload? node with
    | some old => exact settles_perform (Tree.decides_update node old payload (Or.inl hold)) _
    | none => exact settles_perform (Tree.decides_update node payload payload (Or.inr hold)) _
  · intro node e herror
    unfold discard at herror ⊢
    rw [run_eq] at herror ⊢
    rcases (Tree.decides_discard (t := d.tree) node).cases with ⟨_, hok⟩ | ⟨_, e', hrefused⟩
    · rw [hok] at herror
      cases herror
    · rw [hrefused]

/-- A document with two subscriptions and a function that is not in the tree yet. Nothing lies
beneath the root, so a removal is refused; appending the function is announced to both. -/
theorem removal_and_insertion_settle :
    ∃ d : Document, d.Reachable ∧ d.subscriptions = [⟨0⟩, ⟨1⟩] ∧
      (∃ e, (d.removeChild ⟨0, 0⟩ 0).1 = .error e) ∧ (d.removeChild ⟨0, 0⟩ 0).2 = d ∧
      (d.appendChild ⟨0, 0⟩ ⟨1, 0⟩).1 = .ok (.inserted ⟨0, 0⟩ 0 ⟨1, 0⟩) ∧
      (d.appendChild ⟨0, 0⟩ ⟨1, 0⟩).2.notifications =
        [⟨⟨0⟩, .inserted ⟨0, 0⟩ 0 ⟨1, 0⟩, (d.appendChild ⟨0, 0⟩ ⟨1, 0⟩).2.tree⟩,
          ⟨⟨1⟩, .inserted ⟨0, 0⟩ 0 ⟨1, 0⟩, (d.appendChild ⟨0, 0⟩ ⟨1, 0⟩).2.tree⟩] := by
  have hreach : ((((ofTree (.new none)).after .subscribe).after .subscribe).after
      (.operation (.create (.function "f" [] [])))).Reachable :=
    .after _ (.after _ (.after _ (.new none)))
  obtain ⟨_, _, happend, hremove, _⟩ := edits_settle hreach
  exact ⟨_, hreach, rfl, ⟨_, rfl⟩, (hremove ⟨0, 0⟩ 0).unchanged rfl, rfl,
    (happend ⟨0, 0⟩ ⟨1, 0⟩).notified rfl⟩

end ProgramTree.Document
