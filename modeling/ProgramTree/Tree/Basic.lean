import ProgramTree.Arena
import ProgramTree.Payload

/-! # Trees

A tree keeps its nodes in a store and links them both ways: a node holds the
identity of its parent and the ordered identities of its children. Beside the
nodes under the root there may be detached ones, which have no parent and may
have children of their own. -/

namespace ProgramTree

set_option autoImplicit false

structure Node where
  payload : Payload
  parent : Option NodeId
  children : List NodeId

structure Tree where
  nodes : Arena Node
  root : NodeId

namespace Tree

/-- A tree whose only node is a unit with the given package. -/
def new (package : Option String) : Tree :=
  let (root, nodes) := Arena.empty.insert ⟨.compilationUnit package, none, []⟩
  ⟨nodes, root⟩

/-- Adds a node without a parent and without children. -/
def create (t : Tree) (payload : Payload) : NodeId × Tree :=
  let (id, nodes) := t.nodes.insert ⟨payload, none, []⟩
  (id, { t with nodes })

def node? (t : Tree) (id : NodeId) : Option Node :=
  t.nodes.get? id

def contains (t : Tree) (id : NodeId) : Bool :=
  t.nodes.contains id

/-- The number of live nodes, under the root or not. -/
def size (t : Tree) : Nat :=
  t.nodes.size

def modifyNode (t : Tree) (id : NodeId) (f : Node → Node) : Tree :=
  { t with nodes := t.nodes.modify id f }

def payload? (t : Tree) (id : NodeId) : Option Payload :=
  (t.node? id).map Node.payload

def kind? (t : Tree) (id : NodeId) : Option NodeKind :=
  (t.payload? id).map Payload.kind

def parent? (t : Tree) (id : NodeId) : Option NodeId :=
  (t.node? id).bind Node.parent

def children (t : Tree) (id : NodeId) : List NodeId :=
  ((t.node? id).map Node.children).getD []

def isDetached (t : Tree) (id : NodeId) : Bool :=
  (t.node? id).any fun node => node.parent.isNone && id != t.root

/-- The tops of all detached subtrees, in increasing order. -/
def detached (t : Tree) : List NodeId :=
  t.nodes.ids.filter t.isDetached

end Tree
end ProgramTree
