import ProgramTree.Walk.Basic

/-! # Walks that share the nodes in progress

The nodes in progress belong to the tree, so all walks over it share them. A
handler that starts a walk gives it none: the walk finds what the walks around
it are inside of, and they go on with what it leaves behind.

A handler that starts no walk is a function of the site and the state, which is
what `Visitor` makes of every handler. Here a handler is described by the walks
that it starts, and the shared nodes are passed from one to the next. -/

namespace ProgramTree

set_option autoImplicit false

/-- What a handler does: it answers, or it starts a walk and goes on by the outcome. The handlers
of that walk may start walks in turn. -/
inductive Handling (σ : Type) : Type → Type 1
  | answer {α : Type} (a : α) (s : σ) : Handling σ α
  | walk {α : Type} (start : NodeId) (visit : Site → σ → Handling σ (Except Unsupported Flow))
      (leave : Site → σ → Handling σ Unit) (s : σ)
      (next : Except WalkError WalkSummary → σ → Handling σ α) : Handling σ α

/-- Handlers that are given the nodes in progress and answer with what becomes of them. -/
structure SharingVisitor (σ : Type) where
  visit : Site → σ → List NodeId → Except Unsupported Flow × σ × List NodeId
  leave : Site → σ → List NodeId → σ × List NodeId

/-- The state when a handler is done. -/
def WalkState.resumed {σ : Type} (w : WalkState σ) (s : σ) (active : List NodeId) : WalkState σ :=
  { w with active, visitor := s }

namespace SharingVisitor

variable {σ : Type}

def finish (v : SharingVisitor σ) (site : Site) (w : WalkState σ) : WalkState σ :=
  let (s, active) := v.leave site w.visitor w.active
  (w.resumed s active).exit site.id

mutual

def walkBranch (v : SharingVisitor σ) (t : Tree) :
    Branch → WalkState σ → Except WalkError Unit × WalkState σ
  | .node id payload children, w =>
    if id ∈ w.active then (.error (.reentrant id), w)
    else
      let entered := w.enter id
      let site := ⟨t, .node id payload children, entered.active⟩
      match v.visit site entered.visitor entered.active with
      | (.error refusal, s, active) =>
        (.error (.unsupported refusal), (entered.resumed s active).exit id)
      | (.ok .skipChildren, s, active) => (.ok (), v.finish site (entered.resumed s active).skip)
      | (.ok .proceed, s, active) =>
        match walkAll v t children (entered.resumed s active) with
        | (.error e, w) => (.error e, w.exit id)
        | (.ok (), w) => (.ok (), v.finish site w)

def walkAll (v : SharingVisitor σ) (t : Tree) :
    List Branch → WalkState σ → Except WalkError Unit × WalkState σ
  | [], w => (.ok (), w)
  | b :: bs, w =>
    match walkBranch v t b w with
    | (.error e, w) => (.error e, w)
    | (.ok (), w) => walkAll v t bs w

end

end SharingVisitor

namespace Tree

variable {σ : Type}

/-- Walks over the branch of a node, and answers with the nodes in progress as the walk leaves
them. -/
def walkSharing (t : Tree) (active : List NodeId) (id : NodeId) (v : SharingVisitor σ) (s : σ) :
    Except WalkError WalkSummary × WalkState σ :=
  let start : WalkState σ := ⟨active, ⟨0, 0⟩, s⟩
  match t.branch? id with
  | none => (.error (.unknownNode id), start)
  | some branch =>
    match v.walkBranch t branch start with
    | (.error e, w) => (.error e, w)
    | (.ok (), w) => (.ok w.summary, w)

end Tree

namespace Handling

variable {σ : Type}

/-- A handler run on the shared nodes in progress: each walk that it starts finds the nodes as
the one before has left them. -/
def sharing (t : Tree) : {α : Type} → Handling σ α → List NodeId → α × σ × List NodeId
  | _, answer a s, active => (a, s, active)
  | _, walk start visit leave s next, active =>
    let (outcome, w) := t.walkSharing active start
      ⟨fun site s => (visit site s).sharing t,
        fun site s active => ((leave site s).sharing t active).2⟩ s
    (next outcome w.visitor).sharing t w.active

/-- A handler that gives the nodes in progress to each walk that it starts. -/
def giving (t : Tree) : {α : Type} → Handling σ α → List NodeId → α × σ
  | _, answer a s, _ => (a, s)
  | _, walk start visit leave s next, active =>
    let (outcome, w) := t.walkFrom active start
      ⟨fun site s => (visit site s).giving t site.active,
        fun site s => ((leave site s).giving t site.active).2⟩ s
    (next outcome w.visitor).giving t active

end Handling

end ProgramTree
