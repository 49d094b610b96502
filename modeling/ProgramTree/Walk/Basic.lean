import ProgramTree.Tree.Branch
import ProgramTree.Tree.Edit

/-! # Walks

A walk shows the nodes of a branch to a visitor, each before its children and
again after them. The visitor is a state machine: it answers whether the walk
goes on to the children, or fails, which ends the walk at once.

While a visitor is inside a node, that node is in progress. A walk refuses to
enter a node in progress, so a walk that is started from within another one
cannot go round in circles; what it entered itself it has left again when it
ends, by whatever way. -/

namespace ProgramTree

set_option autoImplicit false

/-- Whether a walk goes on to the children of a node. -/
inductive Flow
  | proceed
  | skipChildren
  deriving DecidableEq, Repr

def Flow.ofDescend (descend : Bool) : Flow :=
  if descend then .proceed else .skipChildren

/-- A visitor's refusal of a node. -/
structure Unsupported where
  kind : NodeKind
  id : NodeId
  visitor : String
  deriving DecidableEq, Repr

def Unsupported.message (u : Unsupported) : String :=
  "visitor " ++ u.visitor ++ " does not handle " ++ u.kind.name ++ " nodes (at " ++ u.id.text ++
    ")"

inductive WalkError
  | unsupported (refusal : Unsupported)
  | reentrant (id : NodeId)
  | unknownNode (id : NodeId)
  deriving DecidableEq, Repr

def WalkError.message : WalkError → String
  | unsupported refusal => refusal.message
  | reentrant id => "re-entrant traversal of " ++ id.text ++ ": node is already being visited"
  | unknownNode id => unknownNodeMessage id

/-- The numbers of visits and of the visits that skipped the children. -/
structure WalkSummary where
  visited : Nat
  skipped : Nat
  deriving DecidableEq, Repr

/-- What a visitor is shown: the tree, a branch of it, and the nodes in progress, the
top of the branch among them. -/
structure Site where
  tree : Tree
  branch : Branch
  active : List NodeId

namespace Site

def id (s : Site) : NodeId :=
  s.branch.id

def payload (s : Site) : Payload :=
  s.branch.payload

def kind (s : Site) : NodeKind :=
  s.branch.kind

end Site

structure Visitor (σ : Type) where
  visit : Site → σ → Except Unsupported Flow × σ
  leave : Site → σ → σ

/-- How far a walk has come. -/
structure WalkState (σ : Type) where
  active : List NodeId
  summary : WalkSummary
  visitor : σ

namespace WalkState

variable {σ : Type}

def enter (w : WalkState σ) (id : NodeId) : WalkState σ :=
  { w with
    active := id :: w.active
    summary := { w.summary with visited := w.summary.visited + 1 } }

def skip (w : WalkState σ) : WalkState σ :=
  { w with summary := { w.summary with skipped := w.summary.skipped + 1 } }

/-- The node is no longer in progress. -/
def exit (w : WalkState σ) (id : NodeId) : WalkState σ :=
  { w with active := w.active.erase id }

def withVisitor (w : WalkState σ) (s : σ) : WalkState σ :=
  { w with visitor := s }

end WalkState

namespace Visitor

variable {σ : Type}

/-- Hands each node to the visitor for its kind, and refuses kinds that there is none for. -/
def byKind (name : String) (visitor? : NodeKind → Option (Visitor σ)) : Visitor σ where
  visit site s :=
    match visitor? site.kind with
    | some v => v.visit site s
    | none => (.error ⟨site.kind, site.id, name⟩, s)
  leave site s :=
    match visitor? site.kind with
    | some v => v.leave site s
    | none => s

/-- Shows a node for the last time and ends its progress. -/
def finish (v : Visitor σ) (site : Site) (w : WalkState σ) : WalkState σ :=
  (w.withVisitor (v.leave site w.visitor)).exit site.id

mutual

def walkBranch (v : Visitor σ) (t : Tree) :
    Branch → WalkState σ → Except WalkError Unit × WalkState σ
  | .node id payload children, w =>
    if id ∈ w.active then (.error (.reentrant id), w)
    else
      let entered := w.enter id
      let site := ⟨t, .node id payload children, entered.active⟩
      match v.visit site entered.visitor with
      | (.error refusal, s) =>
        (.error (.unsupported refusal), (entered.withVisitor s).exit id)
      | (.ok .skipChildren, s) => (.ok (), v.finish site (entered.withVisitor s).skip)
      | (.ok .proceed, s) =>
        match walkAll v t children (entered.withVisitor s) with
        | (.error e, w) => (.error e, w.exit id)
        | (.ok (), w) => (.ok (), v.finish site w)

def walkAll (v : Visitor σ) (t : Tree) :
    List Branch → WalkState σ → Except WalkError Unit × WalkState σ
  | [], w => (.ok (), w)
  | b :: bs, w =>
    match walkBranch v t b w with
    | (.error e, w) => (.error e, w)
    | (.ok (), w) => walkAll v t bs w

end

end Visitor

namespace Tree

variable {σ : Type}

/-- Walks over the branch of a node while the given nodes are in progress. -/
def walkFrom (t : Tree) (active : List NodeId) (id : NodeId) (v : Visitor σ) (s : σ) :
    Except WalkError WalkSummary × WalkState σ :=
  let start : WalkState σ := ⟨active, ⟨0, 0⟩, s⟩
  match t.branch? id with
  | none => (.error (.unknownNode id), start)
  | some branch =>
    match v.walkBranch t branch start with
    | (.error e, w) => (.error e, w)
    | (.ok (), w) => (.ok w.summary, w)

/-- Walks over the branch of a node. -/
def walk (t : Tree) (id : NodeId) (v : Visitor σ) (s : σ) : Except WalkError WalkSummary × σ :=
  let (answer, w) := t.walkFrom [] id v s
  (answer, w.visitor)

/-- A visitor that notes the identities it is shown, and does not go beneath the given kinds. -/
def preorder (prune : List NodeKind) : Visitor (List NodeId) where
  visit site seen :=
    (.ok (.ofDescend (!prune.contains site.kind)), seen ++ [site.id])
  leave _ seen := seen

/-- The identities that lie within a node, each node before its children. -/
def collect (t : Tree) (id : NodeId) (prune : List NodeKind) :
    Except WalkError WalkSummary × List NodeId :=
  t.walk id (preorder prune) []

end Tree
end ProgramTree
