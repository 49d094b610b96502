import ProgramTree.Tree.Edit

/-! # Documents

A document is a tree with subscriptions to its changes. After an edit that
succeeded each subscription is notified once, in the order of subscribing, of
the same change, and is shown the tree as the edit left it. Subscriptions are
numbered as they are made and no number is given twice. -/

namespace ProgramTree

set_option autoImplicit false

structure Subscription where
  number : Nat
  deriving DecidableEq, Repr

structure Notification where
  subscription : Subscription
  change : Change
  tree : Tree

/-- The notifications are all that were sent, oldest first. -/
structure Document where
  tree : Tree
  subscriptions : List Subscription
  nextNumber : Nat
  notifications : List Notification

namespace Document

def ofTree (tree : Tree) : Document :=
  ⟨tree, [], 0, []⟩

def subscribe (d : Document) : Subscription × Document :=
  (⟨d.nextNumber⟩,
    { d with
      subscriptions := d.subscriptions ++ [⟨d.nextNumber⟩]
      nextNumber := d.nextNumber + 1 })

/-- Ends a subscription; the answer is whether there was one to end. -/
def unsubscribe (d : Document) (s : Subscription) : Bool × Document :=
  (s ∈ d.subscriptions, { d with subscriptions := d.subscriptions.filter (· ≠ s) })

/-- Calls one listener, which is shown the tree. -/
def notify (change : Change) (d : Document) (s : Subscription) : Document :=
  { d with notifications := d.notifications ++ [⟨s, change, d.tree⟩] }

/-- Takes the subscriptions out of the document, calls one listener after the other, and puts the
subscriptions back. -/
def announce (d : Document) (change : Change) : Document :=
  { d.subscriptions.foldl (notify change) { d with subscriptions := [] } with
    subscriptions := d.subscriptions }

/-- Runs an edit that nobody is notified of. -/
def run {α : Type} (d : Document) (edit : Edit α) : Except EditError α × Document :=
  let (answer, tree) := edit.run.run d.tree
  (answer, { d with tree })

/-- Runs an edit and sends out the change it made, if it succeeds. -/
def perform {α : Type} (d : Document) (edit : Edit α) (change : α → Change) :
    Except EditError α × Document :=
  match d.run edit with
  | (.ok a, d) => (.ok a, d.announce (change a))
  | (.error e, d) => (.error e, d)

def create (d : Document) (payload : Payload) : NodeId × Document :=
  let (id, tree) := d.tree.create payload
  (id, { d with tree })

def insertChild (d : Document) (parent : NodeId) (index : Nat) (node : NodeId) :
    Except EditError Change × Document :=
  d.perform (Tree.insertChild parent index node) id

def appendChild (d : Document) (parent node : NodeId) : Except EditError Change × Document :=
  d.perform (Tree.appendChild parent node) id

def removeChild (d : Document) (parent : NodeId) (index : Nat) :
    Except EditError Change × Document :=
  d.perform (Tree.removeChild parent index) id

def replaceChild (d : Document) (parent : NodeId) (index : Nat) (node : NodeId) :
    Except EditError Change × Document :=
  d.perform (Tree.replaceChild parent index node) id

def moveChild (d : Document) (fromParent : NodeId) (fromIndex : Nat) (toParent : NodeId)
    (toIndex : Nat) : Except EditError Change × Document :=
  d.perform (Tree.moveChild fromParent fromIndex toParent toIndex) id

def update (d : Document) (node : NodeId) (payload : Payload) :
    Except EditError (Payload × Change) × Document :=
  d.perform (Tree.update node payload) Prod.snd

def discard (d : Document) (node : NodeId) : Except EditError Nat × Document :=
  d.run (Tree.discard node)

def sweep (d : Document) : Nat × Document :=
  let (count, tree) := d.tree.sweep
  (count, { d with tree })

end Document
end ProgramTree
