import ProgramTree.Tree.Basic

/-! # Ways through a tree

Upward by parent links, sideways by the place in the parent's child list, and
downward through the named parts of a statement. A walk upward takes no more
steps than there are nodes. -/

namespace ProgramTree

set_option autoImplicit false

namespace Tree

/-- The first ancestors of a node, at most as many as given. -/
def ancestorsUpTo (t : Tree) : Nat → NodeId → List NodeId
  | 0, _ => []
  | steps + 1, id =>
    match t.parent? id with
    | some parent => parent :: ancestorsUpTo t steps parent
    | none => []

/-- Parent, grandparent and so on, up to the top. -/
def ancestors (t : Tree) (id : NodeId) : List NodeId :=
  t.ancestorsUpTo t.size id

def depth (t : Tree) (id : NodeId) : Nat :=
  (t.ancestors id).length

/-- Whether the first node is the second or lies beneath it. -/
def isWithin (t : Tree) (id other : NodeId) : Bool :=
  id == other || (t.ancestors id).contains other

def child? (t : Tree) (id : NodeId) (index : Nat) : Option NodeId :=
  (t.children id)[index]?

/-- The place of a node in the child list of its parent. -/
def indexInParent? (t : Tree) (id : NodeId) : Option Nat :=
  (t.parent? id).bind fun parent => (t.children parent).idxOf? id

def nextSibling? (t : Tree) (id : NodeId) : Option NodeId := do
  let index ← t.indexInParent? id
  t.child? (← t.parent? id) (index + 1)

def previousSibling? (t : Tree) (id : NodeId) : Option NodeId := do
  match ← t.indexInParent? id with
  | 0 => none
  | index + 1 => t.child? (← t.parent? id) index

/-- The children of which a kind test holds. -/
def childrenOfKind (t : Tree) (id : NodeId) (test : NodeKind → Bool) : List NodeId :=
  (t.children id).filter fun child => (t.kind? child).any test

/-- The statement list: the children that are not clauses. -/
def statements (t : Tree) (id : NodeId) : List NodeId :=
  t.childrenOfKind id NodeKind.isStatement

def elseIfClauses (t : Tree) (id : NodeId) : List NodeId :=
  t.childrenOfKind id (· == .elseIfClause)

def elseClause? (t : Tree) (id : NodeId) : Option NodeId :=
  (t.childrenOfKind id (· == .elseClause)).head?

def catchClause? (t : Tree) (id : NodeId) : Option NodeId :=
  (t.childrenOfKind id (· == .catchClause)).head?

def condition? (t : Tree) (id : NodeId) : Option Expression :=
  (t.payload? id).bind Payload.condition?

end Tree
end ProgramTree
