import ProgramTree.Arena
import ProgramTree.Json

/-! # Changes

What a successful edit did to a tree. A change names every node whose payload,
parent or child list it touched. -/

namespace ProgramTree

set_option autoImplicit false

inductive Change
  | inserted (parent : NodeId) (index : Nat) (node : NodeId)
  | removed (parent : NodeId) (index : Nat) (node : NodeId)
  | replaced (parent : NodeId) (index : Nat) (old new : NodeId)
  | moved (node fromParent : NodeId) (fromIndex : Nat) (toParent : NodeId) (toIndex : Nat)
  | updated (node : NodeId)
  deriving DecidableEq, Repr

namespace Change

def name : Change → String
  | inserted .. => "inserted"
  | removed .. => "removed"
  | replaced .. => "replaced"
  | moved .. => "moved"
  | updated .. => "updated"

/-- The nodes that the change touched, each once. -/
def affected : Change → List NodeId
  | inserted parent _ node => [parent, node]
  | removed parent _ node => [parent, node]
  | replaced parent _ old new => [parent, old, new]
  | moved node fromParent _ toParent _ =>
    if fromParent = toParent then [fromParent, node] else [fromParent, toParent, node]
  | updated node => [node]

def json (change : Change) : Json :=
  let id (n : NodeId) : Json := .string n.text
  let number (n : Nat) : Json := .int n
  let fields := match change with
    | inserted parent index node | removed parent index node =>
      [("parent", id parent), ("index", number index), ("node", id node)]
    | replaced parent index old new =>
      [("parent", id parent), ("index", number index), ("old", id old), ("new", id new)]
    | moved node fromParent fromIndex toParent toIndex =>
      [("node", id node), ("from_parent", id fromParent), ("from_index", number fromIndex),
        ("to_parent", id toParent), ("to_index", number toIndex)]
    | updated node => [("node", id node)]
  .object (("change", .string change.name) :: fields)

end Change
end ProgramTree
