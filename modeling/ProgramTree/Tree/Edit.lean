import ProgramTree.Layout
import ProgramTree.Tree.Branch
import ProgramTree.Tree.Change
import ProgramTree.Tree.Navigation

/-! # Edits

An edit checks the whole request before its first write: that the nodes are
alive, that the place exists, that no node comes to lie beneath itself, and
that the resulting child list has an admissible layout. What was written before
a failure stays written, so it is the order of checks and writes that makes a
refused edit leave the tree alone.

Only a move takes a node away from its parent and gives it to another one; the
other edits take nodes without a parent. The answer of an edit is the change
that it made. -/

namespace ProgramTree

set_option autoImplicit false

/-- The edits that the root cannot be used in. -/
inductive RootUse
  | insertion
  | replacement
  | discarding
  deriving DecidableEq, Repr

def RootUse.name : RootUse → String
  | insertion => "insert_child"
  | replacement => "replace_child"
  | discarding => "discard"

inductive EditError
  | unknownNode (id : NodeId)
  | indexOutOfBounds (parent : NodeId) (index length : Nat)
  | alreadyAttached (node parent : NodeId)
  | notDetached (node parent : NodeId)
  | rootNode (node : NodeId) (use : RootUse)
  | cycle (node parent : NodeId)
  | layout (parent : NodeId) (parentKind : NodeKind) (fault : Layout.Fault)
  | kindMismatch (node : NodeId) (expected found : NodeKind)
  deriving DecidableEq, Repr

/-- The message for an identity that names no live node. -/
def unknownNodeMessage (id : NodeId) : String :=
  "unknown node " ++ id.text

def EditError.message : EditError → String
  | unknownNode id => unknownNodeMessage id
  | indexOutOfBounds parent index length =>
    "index " ++ toString index ++ " out of bounds for " ++ parent.text ++ " with " ++
      toString length ++ " children"
  | alreadyAttached node parent => node.text ++ " is already a child of " ++ parent.text
  | notDetached node parent => node.text ++ " is still attached to " ++ parent.text
  | rootNode node use =>
    "the root node " ++ node.text ++ " cannot be used in " ++ use.name
  | cycle node parent =>
    "placing " ++ node.text ++ " under " ++ parent.text ++ " would create a cycle"
  | layout parent parentKind (.notAllowed child) =>
    parentKind.name ++ " " ++ parent.text ++ " does not accept " ++ child.name ++ " children"
  | layout parent parentKind (.outOfOrder fault) =>
    parentKind.name ++ " " ++ parent.text ++ ": " ++ fault.message
  | kindMismatch node expected found =>
    "cannot update " ++ node.text ++ ": expected " ++ expected.name ++ " payload, found " ++
      found.name

/-- A run over a tree that answers or fails, and keeps what it wrote either way. -/
abbrev Edit (α : Type) : Type :=
  ExceptT EditError (StateM Tree) α

namespace Edit

def ensure (condition : Bool) (e : EditError) : Edit Unit :=
  if condition then pure () else throw e

/-- A live node. -/
def nodeOf (id : NodeId) : Edit Node := do
  match (← get).node? id with
  | some node => return node
  | none => throw (.unknownNode id)

/-- The snapshot of a live node. -/
def snapshotOf (id : NodeId) : Edit Snapshot := do
  match (← get).snapshot? id with
  | some snapshot => return snapshot
  | none => throw (.unknownNode id)

/-- Changes a live node. -/
def write (id : NodeId) (f : Node → Node) : Edit Unit := do
  let _ ← nodeOf id
  modify (·.modifyNode id f)

def kindOf (id : NodeId) : Edit NodeKind := do
  let node ← nodeOf id
  return node.payload.kind

def childAt (parent : NodeId) (index : Nat) : Edit NodeId := do
  let node ← nodeOf parent
  match node.children[index]? with
  | some child => return child
  | none => throw (.indexOutOfBounds parent index node.children.length)

def kindsOf : List NodeId → Edit (List NodeKind)
  | [] => return []
  | id :: ids => do
    let kind ← kindOf id
    let kinds ← kindsOf ids
    return kind :: kinds

def childKinds (parent : NodeId) : Edit (List NodeKind) := do
  let node ← nodeOf parent
  kindsOf node.children

/-- Accepts a live node that is not the root and has no parent. -/
def checkInsertable (node : NodeId) (use : RootUse) : Edit Unit := do
  let found ← nodeOf node
  ensure (node != (← get).root) (.rootNode node use)
  match found.parent with
  | some parent => throw (.alreadyAttached node parent)
  | none => return

/-- Accepts a parent that is neither the node nor beneath it. -/
def checkAcyclic (node parent : NodeId) : Edit Unit := do
  ensure (!(← get).isWithin parent node) (.cycle node parent)

def checkLayout (parent : NodeId) (kinds : List NodeKind) : Edit Unit := do
  let kind ← kindOf parent
  match Layout.check kind kinds with
  | .ok () => return
  | .error fault => throw (.layout parent kind fault)

end Edit

namespace Tree

open Edit

/-- Puts a node without a parent at a place of a child list. -/
def insertChild (parent : NodeId) (index : Nat) (node : NodeId) : Edit Change := do
  let length := (← nodeOf parent).children.length
  checkInsertable node .insertion
  ensure (index ≤ length) (.indexOutOfBounds parent index length)
  checkAcyclic node parent
  let kinds ← childKinds parent
  let kind ← kindOf node
  checkLayout parent (kinds.insertIdx index kind)
  write parent fun n => { n with children := n.children.insertIdx index node }
  write node fun n => { n with parent := some parent }
  return .inserted parent index node

/-- Puts a node without a parent at the end of a child list. -/
def appendChild (parent node : NodeId) : Edit Change := do
  let length := (← nodeOf parent).children.length
  insertChild parent length node

/-- Takes a child out of a child list; it stays alive without a parent. -/
def removeChild (parent : NodeId) (index : Nat) : Edit Change := do
  let node ← childAt parent index
  write parent fun n => { n with children := n.children.eraseIdx index }
  write node fun n => { n with parent := none }
  return .removed parent index node

/-- Puts a node without a parent in the place of a child, which then has none. -/
def replaceChild (parent : NodeId) (index : Nat) (node : NodeId) : Edit Change := do
  let old ← childAt parent index
  checkInsertable node .replacement
  checkAcyclic node parent
  let kinds ← childKinds parent
  let kind ← kindOf node
  checkLayout parent (kinds.set index kind)
  write parent fun n => { n with children := n.children.set index node }
  write node fun n => { n with parent := some parent }
  write old fun n => { n with parent := none }
  return .replaced parent index old node

/-- Moves a child to a place of a child list, counted without the child itself. -/
def moveChild (fromParent : NodeId) (fromIndex : Nat) (toParent : NodeId) (toIndex : Nat) :
    Edit Change := do
  let node ← childAt fromParent fromIndex
  let _ ← nodeOf toParent
  checkAcyclic node toParent
  let present ← childKinds toParent
  let kinds := if fromParent = toParent then present.eraseIdx fromIndex else present
  ensure (toIndex ≤ kinds.length) (.indexOutOfBounds toParent toIndex kinds.length)
  let kind ← kindOf node
  checkLayout toParent (kinds.insertIdx toIndex kind)
  write fromParent fun n => { n with children := n.children.eraseIdx fromIndex }
  write toParent fun n => { n with children := n.children.insertIdx toIndex node }
  write node fun n => { n with parent := some toParent }
  return .moved node fromParent fromIndex toParent toIndex

/-- Exchanges the payload of a node for another one of the same kind. The answer holds
the old payload beside the change. -/
def update (node : NodeId) (payload : Payload) : Edit (Payload × Change) := do
  let found ← nodeOf node
  ensure (found.payload.kind == payload.kind)
    (.kindMismatch node found.payload.kind payload.kind)
  write node fun n => { n with payload }
  return (found.payload, .updated node)

/-- Removes a node from the store, and nothing from the child lists of others. -/
def free (t : Tree) (id : NodeId) : Tree :=
  { t with nodes := t.nodes.remove id }

/-- Frees the nodes of a stack and puts the children of each on the stack, the last child on
top. What is no longer there is passed over. The answer is the number of nodes freed. -/
def freeStack (t : Tree) : List NodeId → Nat × Tree
  | [] => (0, t)
  | id :: stack =>
    match h : t.node? id with
    | some node =>
      have : (t.free id).nodes.occupied < t.nodes.occupied :=
        Arena.occupied_remove_lt (by simpa [node?, Arena.contains] using congrArg Option.isSome h)
      let (count, t) := (t.free id).freeStack (node.children.reverse ++ stack)
      (count + 1, t)
    | none => t.freeStack stack
termination_by stack => (t.nodes.occupied, stack.length)

/-- Frees all that lies within a node, the last child of a node before the others; the answer is
the number of nodes freed. -/
def freeBranch (t : Tree) (id : NodeId) : Nat × Tree :=
  t.freeStack [id]

/-- Frees a detached subtree. -/
def discard (id : NodeId) : Edit Nat := do
  let found ← nodeOf id
  ensure (id != (← get).root) (.rootNode id .discarding)
  match found.parent with
  | some parent => throw (.notDetached id parent)
  | none =>
    let (count, t) := (← get).freeBranch id
    set t
    return count

/-- Frees every detached subtree, in the order of their tops. -/
def sweep (t : Tree) : Nat × Tree :=
  t.detached.foldl (fun (count, t) id =>
    let (freed, t) := t.freeBranch id
    (count + freed, t)) (0, t)

end Tree
end ProgramTree
