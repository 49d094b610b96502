import ProgramTree.Malformed
import ProgramTree.Text.Blank

/-! # Payloads

A payload holds the attributes of a node: names, types and expressions, and
never child nodes. A form is what a user or a text fills in for a payload; its
expressions may be left out and its names are any text. Checking a form gives
a payload or the first fault, so the payloads that forms give are well formed. -/

namespace ProgramTree

set_option autoImplicit false

structure Parameter where
  typeName : String
  name : String
  deriving DecidableEq

inductive Payload
  | compilationUnit (package : Option String)
  | function (name : String) (params : List Parameter) (returns : List String)
  | block
  | ifStatement (condition : Expression)
  | elseIfClause (condition : Expression)
  | elseClause
  | whileLoop (condition : Expression)
  | assignment (target value : Expression)
  | variableDefinition (typeName name : String) (initializer : Option Expression)
  | callStatement (expression : Expression)
  | returnStatement (values : List Expression)
  | replyStatement (value : Expression)
  | breakStatement
  | continueStatement
  | throwStatement (value : Expression)
  | tryStatement
  | catchClause (typeName variableName : String)
  | comment (text : String)
  deriving DecidableEq

namespace Payload

def kind : Payload → NodeKind
  | compilationUnit _ => .compilationUnit
  | function .. => .function
  | block => .block
  | ifStatement _ => .ifStatement
  | elseIfClause _ => .elseIfClause
  | elseClause => .elseClause
  | whileLoop _ => .whileLoop
  | assignment .. => .assignment
  | variableDefinition .. => .variableDefinition
  | callStatement _ => .callStatement
  | returnStatement _ => .returnStatement
  | replyStatement _ => .replyStatement
  | breakStatement => .breakStatement
  | continueStatement => .continueStatement
  | throwStatement _ => .throwStatement
  | tryStatement => .tryStatement
  | catchClause .. => .catchClause
  | comment _ => .comment

/-- The condition of the kinds that hold one. -/
def condition? : Payload → Option Expression
  | ifStatement condition | elseIfClause condition | whileLoop condition => some condition
  | _ => none

/-- Equality of payloads in which floats agree as numbers. -/
def agrees : Payload → Payload → Bool
  | ifStatement a, ifStatement b | elseIfClause a, elseIfClause b | whileLoop a, whileLoop b
  | callStatement a, callStatement b | replyStatement a, replyStatement b
  | throwStatement a, throwStatement b => a.agrees b
  | assignment t a, assignment u b => t.agrees u && a.agrees b
  | variableDefinition t n (some a), variableDefinition u m (some b) =>
    t == u && n == m && a.agrees b
  | returnStatement as, returnStatement bs => Expression.allAlike Literal.agrees as bs
  | a, b => a == b

end Payload

/-- A payload as it is filled in, with nothing checked. -/
inductive Form
  | compilationUnit (package : Option String)
  | function (name : String) (params : List (String × String)) (returns : List String)
  | block
  | ifStatement (condition : Option Expression)
  | elseIfClause (condition : Option Expression)
  | elseClause
  | whileLoop (condition : Option Expression)
  | assignment (target value : Option Expression)
  | variableDefinition (typeName name : String) (initializer : Option Expression)
  | callStatement (expression : Option Expression)
  | returnStatement (values : List Expression)
  | replyStatement (value : Option Expression)
  | breakStatement
  | continueStatement
  | throwStatement (value : Option Expression)
  | tryStatement
  | catchClause (typeName variableName : String)
  | comment (text : String)
  deriving DecidableEq

namespace Form

/-- A field that has to be filled in with a well-formed expression. -/
def require (kind : NodeKind) (field : String) (value : Option Expression) :
    Except MalformedNode Expression :=
  match value with
  | none => .error (.missingField kind field)
  | some e => do
    e.validate kind field
    return e

/-- A parameter, written as its type and its name. -/
def parameter (written : String × String) : Except MalformedNode Parameter := do
  checkName Name.isTypeName .function "parameter type" written.1
  checkName Name.isIdentifier .function "parameter name" written.2
  return ⟨written.1, written.2⟩

def parameters : List (String × String) → Except MalformedNode (List Parameter)
  | [] => .ok []
  | written :: rest => do
    let first ← parameter written
    let others ← parameters rest
    return first :: others

/-- The first parameter whose name one of those before it already has. -/
def findDuplicate (seen : List String) : List Parameter → Option String
  | [] => none
  | p :: rest => if p.name ∈ seen then some p.name else findDuplicate (p.name :: seen) rest

def checkPackage : Option String → Except MalformedNode Unit
  | none => .ok ()
  | some package => checkName Name.isPackageName .compilationUnit "package" package

def function? (name : String) (params : List (String × String)) (returns : List String) :
    Except MalformedNode Payload := do
  let params ← parameters params
  checkName Name.isIdentifier .function "name" name
  match findDuplicate [] params with
  | some duplicate => .error (.invalidField .function "params" (.duplicateParameter duplicate))
  | none =>
    checkEach (checkName Name.isTypeName .function "return type") returns
    return .function name params returns

def assignment? (target value : Option Expression) : Except MalformedNode Payload := do
  let target ← require .assignment "target" target
  if target.isAssignable then
    let value ← require .assignment "value" value
    return .assignment target value
  else .error (.invalidField .assignment "target" (.notAssignable target))

def variableDefinition? (typeName name : String) (initializer : Option Expression) :
    Except MalformedNode Payload := do
  checkName Name.isTypeName .variableDefinition "type" typeName
  checkName Name.isIdentifier .variableDefinition "name" name
  checkEach (Expression.validate .variableDefinition "initializer") initializer.toList
  return .variableDefinition typeName name initializer

def callStatement? (expression : Option Expression) : Except MalformedNode Payload := do
  let expression ← require .callStatement "expression" expression
  if expression.isCall then return .callStatement expression
  else .error (.invalidField .callStatement "expression" (.notCall expression))

def catchClause? (typeName variableName : String) : Except MalformedNode Payload := do
  checkName Name.isTypeName .catchClause "type" typeName
  checkName Name.isIdentifier .catchClause "variable" variableName
  return .catchClause typeName variableName

/-- A comment stays on one line, and the blanks around its text do not count. -/
def comment? (text : String) : Except MalformedNode Payload :=
  if text.toList.any fun c => c == '\n' || c == '\r' then
    .error (.invalidField .comment "text" .lineBreak)
  else .ok (.comment (trimBlanks text))

/-- The payload that a form describes, or the first fault in it. -/
def payload : Form → Except MalformedNode Payload
  | compilationUnit package => do
    checkPackage package
    return .compilationUnit package
  | function name params returns => function? name params returns
  | block => .ok .block
  | ifStatement condition => .ifStatement <$> require .ifStatement "condition" condition
  | elseIfClause condition => .elseIfClause <$> require .elseIfClause "condition" condition
  | elseClause => .ok .elseClause
  | whileLoop condition => .whileLoop <$> require .whileLoop "condition" condition
  | assignment target value => assignment? target value
  | variableDefinition typeName name initializer =>
    variableDefinition? typeName name initializer
  | callStatement expression => callStatement? expression
  | returnStatement values => do
    checkEach (Expression.validate .returnStatement "values") values
    return .returnStatement values
  | replyStatement value => .replyStatement <$> require .replyStatement "value" value
  | breakStatement => .ok .breakStatement
  | continueStatement => .ok .continueStatement
  | throwStatement value => .throwStatement <$> require .throwStatement "value" value
  | tryStatement => .ok .tryStatement
  | catchClause typeName variableName => catchClause? typeName variableName
  | comment text => comment? text

end Form
end ProgramTree
