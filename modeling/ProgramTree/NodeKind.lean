/-! # Node kinds

The eighteen kinds of node and the families that the rules of the tree are
stated in: statements, clauses, owners of a statement list, and statements
that end the flow of a list. Every kind has one written name. -/

namespace ProgramTree

set_option autoImplicit false

inductive NodeKind
  | compilationUnit
  | function
  | block
  | ifStatement
  | elseIfClause
  | elseClause
  | whileLoop
  | assignment
  | variableDefinition
  | callStatement
  | returnStatement
  | replyStatement
  | breakStatement
  | continueStatement
  | throwStatement
  | tryStatement
  | catchClause
  | comment
  deriving DecidableEq, Repr

namespace NodeKind

/-- Every kind, in the order in which the kinds are listed to users. -/
def all : List NodeKind :=
  [compilationUnit, function, block, ifStatement, elseIfClause, elseClause, whileLoop,
    assignment, variableDefinition, callStatement, returnStatement, replyStatement,
    breakStatement, continueStatement, throwStatement, tryStatement, catchClause, comment]

/-- The name used in settings, reports and messages. -/
def name : NodeKind → String
  | compilationUnit => "compilation_unit"
  | function => "function"
  | block => "block"
  | ifStatement => "if"
  | elseIfClause => "else_if"
  | elseClause => "else"
  | whileLoop => "while"
  | assignment => "assignment"
  | variableDefinition => "variable_definition"
  | callStatement => "expression_statement"
  | returnStatement => "return"
  | replyStatement => "reply"
  | breakStatement => "break"
  | continueStatement => "continue"
  | throwStatement => "throw"
  | tryStatement => "try_catch"
  | catchClause => "catch"
  | comment => "comment"

def ofName? (text : String) : Option NodeKind :=
  all.find? (·.name == text)

/-- The message for a text that names no kind. -/
def unknownMessage (text : String) : String :=
  "unknown node kind '" ++ text ++ "'"

/-- Kinds that may stand in a statement list. -/
def isStatement : NodeKind → Bool
  | block | ifStatement | whileLoop | assignment | variableDefinition | callStatement
  | returnStatement | replyStatement | breakStatement | continueStatement | throwStatement
  | tryStatement | comment => true
  | _ => false

/-- Kinds that only exist as a part of another statement. -/
def isClause : NodeKind → Bool
  | elseIfClause | elseClause | catchClause => true
  | _ => false

/-- Kinds that own a statement list. -/
def hasBody : NodeKind → Bool
  | function | block | ifStatement | elseIfClause | elseClause | whileLoop | tryStatement
  | catchClause => true
  | _ => false

/-- Statements after which nothing in the same list can run. -/
def isTerminator : NodeKind → Bool
  | returnStatement | replyStatement | breakStatement | continueStatement | throwStatement => true
  | _ => false

/-- Kinds that hold a condition. -/
def isConditional : NodeKind → Bool
  | ifStatement | elseIfClause | whileLoop => true
  | _ => false

end NodeKind
end ProgramTree
