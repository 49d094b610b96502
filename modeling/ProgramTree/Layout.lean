import ProgramTree.NodeKind

/-! # Child layouts

Which kinds may stand under which, and in which order. A child list is read
from the left; the clauses of a statement come after its body, so reading is a
walk through three sections, and a list is refused at its first child that
does not fit the section reached. -/

namespace ProgramTree

set_option autoImplicit false

namespace Layout

/-- The way in which an admissible child stands in the wrong place. -/
inductive OrderFault
  | elseIfAfterElse
  | secondElse
  | statementAfterElse
  | secondCatch
  | statementAfterCatch
  deriving DecidableEq, Repr

def OrderFault.message : OrderFault → String
  | elseIfAfterElse => "an else-if clause cannot follow the else clause"
  | secondElse => "if statement already has an else clause"
  | statementAfterElse => "statements must precede else-if and else clauses"
  | secondCatch => "try-catch already has a catch clause"
  | statementAfterCatch => "statements must precede the catch clause"

inductive Fault
  | notAllowed (child : NodeKind)
  | outOfOrder (fault : OrderFault)
  deriving DecidableEq, Repr

/-- How far a child list has been read: its body, its else-if clauses, or its
last clause. -/
inductive Section
  | body
  | elseIfs
  | closed
  deriving DecidableEq, Repr

def nextInIf : Section → NodeKind → Except Fault Section
  | .closed, .elseIfClause => .error (.outOfOrder .elseIfAfterElse)
  | _, .elseIfClause => .ok .elseIfs
  | .closed, .elseClause => .error (.outOfOrder .secondElse)
  | _, .elseClause => .ok .closed
  | .body, child => if child.isStatement then .ok .body else .error (.notAllowed child)
  | _, child =>
    if child.isStatement then .error (.outOfOrder .statementAfterElse)
    else .error (.notAllowed child)

def nextInTry : Section → NodeKind → Except Fault Section
  | .body, .catchClause => .ok .closed
  | _, .catchClause => .error (.outOfOrder .secondCatch)
  | .body, child => if child.isStatement then .ok .body else .error (.notAllowed child)
  | _, child =>
    if child.isStatement then .error (.outOfOrder .statementAfterCatch)
    else .error (.notAllowed child)

/-- The section reached by one more child. -/
def next (parent : NodeKind) (reached : Section) (child : NodeKind) : Except Fault Section :=
  match parent with
  | .compilationUnit =>
    if child = .function ∨ child = .comment then .ok reached else .error (.notAllowed child)
  | .ifStatement => nextInIf reached child
  | .tryStatement => nextInTry reached child
  | _ =>
    if parent.hasBody ∧ child.isStatement then .ok reached else .error (.notAllowed child)

/-- Reads a child list from the given section on. -/
def readFrom (parent : NodeKind) : Section → List NodeKind → Except Fault Section
  | reached, [] => .ok reached
  | reached, child :: rest =>
    match next parent reached child with
    | .ok following => readFrom parent following rest
    | .error fault => .error fault

/-- Whether the children of a node may have the given kinds, or the first fault. -/
def check (parent : NodeKind) (children : List NodeKind) : Except Fault Unit :=
  match readFrom parent .body children with
  | .ok _ => .ok ()
  | .error fault => .error fault

end Layout
end ProgramTree
