import ProgramTree.Grammar.Statement
import ProgramTree.Source.ParseError
import ProgramTree.Tree.Edit

/-! # Trees from texts

The drafts of a text are checked and placed in reading order: a node comes
before its children, and it is attached to its parent before they are placed. A
node that is malformed, or does not fit under its parent, is reported at the
place where it starts. -/

namespace ProgramTree

set_option autoImplicit false

namespace Draft

mutual

/-- Places a draft as the last child of a node. -/
def attach (source : List Char) (parent : NodeId) : Draft → Tree → Except ParseError Tree
  | node start form children, t =>
    match form.payload with
    | .error e => .error (.atRest source start e.message)
    | .ok payload =>
      let (id, t) := t.create payload
      match (Tree.appendChild parent id).run.run t with
      | (.error e, _) => .error (.atRest source start e.message)
      | (.ok _, t) => attachAll source id children t

def attachAll (source : List Char) (parent : NodeId) : List Draft → Tree → Except ParseError Tree
  | [], t => .ok t
  | draft :: rest, t =>
    match draft.attach source parent t with
    | .error e => .error e
    | .ok t => attachAll source parent rest t

end

/-- The tree that has the draft at its root. -/
def toTree (source : List Char) : Draft → Except ParseError Tree
  | node start form children =>
    match form.payload with
    | .error e => .error (.atRest source start e.message)
    | .ok (.compilationUnit package) =>
      let t := Tree.new package
      attachAll source t.root children t
    | .ok _ => .error (.atRest source start Complaint.unexpected.message)

end Draft

/-- The tree that a text spells. -/
def buildTree (source : String) : Except ParseError Tree :=
  match Reader.run Reader.compilationUnit source.toList with
  | .error e => .error e
  | .ok draft => draft.toTree source.toList

end ProgramTree
