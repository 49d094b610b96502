import ProgramTree.Tree.Basic
import ProgramTree.PayloadJson

/-! # Branches and snapshots

A branch is a node with all that lies beneath it, taken out of the store as
one value, so that what is done to a whole subtree is recursion on the value. A
snapshot is a branch without identities: two subtrees have equal snapshots when
they have the same shape and the same payloads. -/

namespace ProgramTree

set_option autoImplicit false

inductive Branch
  | node (id : NodeId) (payload : Payload) (children : List Branch)

inductive Snapshot
  | node (payload : Payload) (children : List Snapshot)

namespace Branch

def id : Branch → NodeId
  | node id _ _ => id

def payload : Branch → Payload
  | node _ payload _ => payload

def kind (b : Branch) : NodeKind :=
  b.payload.kind

def children : Branch → List Branch
  | node _ _ children => children

mutual

/-- The identities of a branch, each node before its children. -/
def ids : Branch → List NodeId
  | node id _ children => id :: idsAll children

def idsAll : List Branch → List NodeId
  | [] => []
  | b :: bs => b.ids ++ idsAll bs

end

mutual

def snapshot : Branch → Snapshot
  | node _ payload children => .node payload (snapshots children)

def snapshots : List Branch → List Snapshot
  | [] => []
  | b :: bs => b.snapshot :: snapshots bs

end

end Branch

namespace Snapshot

def payload : Snapshot → Payload
  | node payload _ => payload

def kind (s : Snapshot) : NodeKind :=
  s.payload.kind

def children : Snapshot → List Snapshot
  | node _ children => children

mutual

/-- The number of nodes. -/
def size : Snapshot → Nat
  | node _ children => 1 + sizeAll children

def sizeAll : List Snapshot → Nat
  | [] => 0
  | s :: ss => s.size + sizeAll ss

end

mutual

/-- Equality of shape and payloads, in which floats agree as numbers. -/
def agrees : Snapshot → Snapshot → Bool
  | node p children, node p' children' => p.agrees p' && agreesAll children children'

def agreesAll : List Snapshot → List Snapshot → Bool
  | [], [] => true
  | s :: ss, s' :: ss' => s.agrees s' && agreesAll ss ss'
  | _, _ => false

end

mutual

/-- The written form; a node without children has no list of them. -/
def json : Snapshot → Json
  | node payload [] => .object [("data", payload.json)]
  | node payload (s :: ss) =>
    .object [("data", payload.json), ("children", .array (s.json :: jsons ss))]

def jsons : List Snapshot → List Json
  | [] => []
  | s :: ss => s.json :: jsons ss

end

end Snapshot

namespace Tree

/-- The branch of a node down to the given number of levels. -/
def branchUpTo (t : Tree) : Nat → NodeId → Option Branch
  | 0, _ => none
  | levels + 1, id =>
    (t.node? id).map fun node =>
      .node id node.payload (node.children.filterMap (branchUpTo t levels))

/-- The branch of a live node. No branch has more levels than the tree has nodes. -/
def branch? (t : Tree) (id : NodeId) : Option Branch :=
  t.branchUpTo t.size id

def snapshot? (t : Tree) (id : NodeId) : Option Snapshot :=
  (t.branch? id).map Branch.snapshot

end Tree
end ProgramTree
