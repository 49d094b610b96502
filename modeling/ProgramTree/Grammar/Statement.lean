import ProgramTree.Grammar.Expression
import ProgramTree.Payload

/-! # The grammar of statements

Reading gives drafts: forms that nothing has checked yet, with the drafts of
the child nodes and the place where the node starts. A statement is told by its
first character or its first word, except that a definition and an expression
both begin with a name; there the definition is tried first.

After its keyword a statement is committed. A body is read up to its closing
brace, whatever follows it. -/

namespace ProgramTree

set_option autoImplicit false

/-- A node as it was read. Its start is the number of characters that were left there. -/
inductive Draft
  | node (start : Nat) (form : Form) (children : List Draft)

namespace Draft

def start : Draft → Nat
  | node start _ _ => start

def form : Draft → Form
  | node _ form _ => form

def leaf (start : Nat) (form : Form) : Draft :=
  .node start form []

end Draft

namespace Reader

/-- Statements up to and including the closing brace. -/
def closeBody (statement : Reader Draft) : Reader (List Draft) := do
  let statements ← many statement
  committed (expect '}')
  return statements

/-- A body that has to be there. -/
def body (statement : Reader Draft) : Reader (List Draft) := do
  committed (expect '{')
  closeBody statement

/-- An expression in parentheses after a keyword. -/
def condition : Reader Expression :=
  committed do
    expect '('
    let e ← expression
    expect ')'
    return e

/-- An expression and the end of its statement. -/
def lastExpression : Reader Expression :=
  committed do
    let e ← expression
    expect ';'
    return e

def comment : Reader Draft := do
  let start ← position
  let text ← commentText
  return .leaf start (.comment (String.ofList text))

def block (statement : Reader Draft) : Reader Draft := do
  let start ← position
  symbol '{'
  let statements ← closeBody statement
  return .node start .block statements

def elseIfClause (statement : Reader Draft) : Reader Draft := do
  spaces
  let start ← position
  keyword "else"
  spaces
  keyword "if"
  let test ← condition
  let statements ← body statement
  return .node start (.elseIfClause (some test)) statements

def elseClause (statement : Reader Draft) : Reader Draft := do
  spaces
  let start ← position
  keyword "else"
  let statements ← body statement
  return .node start .elseClause statements

def ifStatement (statement : Reader Draft) : Reader Draft := do
  let start ← position
  keyword "if"
  let test ← condition
  let statements ← body statement
  let elseIfs ← many (elseIfClause statement)
  let last ← optional (elseClause statement)
  return .node start (.ifStatement (some test)) (statements ++ elseIfs ++ last.toList)

def whileLoop (statement : Reader Draft) : Reader Draft := do
  let start ← position
  keyword "while"
  let test ← condition
  let statements ← body statement
  return .node start (.whileLoop (some test)) statements

def catchKeyword : Reader Unit := fun text =>
  match keyword "catch" text with
  | .ok () rest => .ok () rest
  | _ => .hard ⟨.expectedWord "catch", text⟩

def catchClause (statement : Reader Draft) : Reader Draft := do
  spaces
  let start ← position
  catchKeyword
  let (caught, name) ← committed do
    expect '('
    spaces
    let caught ← typeName
    spaces
    let name ← identifier
    expect ')'
    return (caught, name)
  let statements ← body statement
  return .node start (.catchClause (String.ofList caught) (String.ofList name)) statements

def tryStatement (statement : Reader Draft) : Reader Draft := do
  let start ← position
  keyword "try"
  let statements ← body statement
  let last ← catchClause statement
  return .node start .tryStatement (statements ++ [last])

/-- A statement that consists of its keyword. -/
def jump (word : String) (form : Form) : Reader Draft := do
  let start ← position
  keyword word
  committed (expect ';')
  return .leaf start form

def returnStatement : Reader Draft := do
  let start ← position
  keyword "return"
  let values ← separated comma expression
  committed (expect ';')
  return .leaf start (.returnStatement values)

/-- A statement that consists of its keyword and one expression. -/
def valued (word : String) (form : Option Expression → Form) : Reader Draft := do
  let start ← position
  keyword word
  let value ← lastExpression
  return .leaf start (form (some value))

/-- An equals sign and an expression. -/
def assigned : Reader Expression := do
  symbol '='
  committed expression

def variableDefinition : Reader Draft := do
  let start ← position
  let declared ← typeName
  spaces
  let name ← identifier
  let initializer ← optional assigned
  committed (expect ';')
  return .leaf start
    (.variableDefinition (String.ofList declared) (String.ofList name) initializer)

/-- An assignment, or an expression on its own. -/
def assignmentOrCall : Reader Draft := do
  let start ← position
  let target ← expression
  let value ← optional assigned
  committed (expect ';')
  match value with
  | some value => return .leaf start (.assignment (some target) (some value))
  | none => return .leaf start (.callStatement (some target))

/-- The reader for statements that start with a given word. -/
def byKeyword? (statement : Reader Draft) (w : List Char) : Option (Reader Draft) :=
  if w = "if".toList then some (ifStatement statement)
  else if w = "while".toList then some (whileLoop statement)
  else if w = "try".toList then some (tryStatement statement)
  else if w = "break".toList then some (jump "break" .breakStatement)
  else if w = "continue".toList then some (jump "continue" .continueStatement)
  else if w = "return".toList then some returnStatement
  else if w = "reply".toList then some (valued "reply" .replyStatement)
  else if w = "throw".toList then some (valued "throw" .throwStatement)
  else none

/-- One statement over a reader of the statements in its bodies. -/
def statementLayer (inner : Reader Draft) : Reader Draft := fun text =>
  match skipSpaces text with
  | '/' :: '/' :: rest => comment ('/' :: '/' :: rest)
  | '{' :: rest => block inner ('{' :: rest)
  | start =>
    match byKeyword? inner (word start) with
    | some reader => reader start
    | none => orElse variableDefinition assignmentOrCall start

def statement (text : List Char) : Outcome Draft :=
  statementLayer (below text fun rest _ => statement rest) text
termination_by text.length

def parameter : Reader (String × String) := do
  spaces
  let declared ← typeName
  spaces
  let name ← identifier
  return (String.ofList declared, String.ofList name)

def returnType : Reader String := do
  spaces
  return String.ofList (← typeName)

/-- The list of return types in parentheses. -/
def returnTypes : Reader (List String) := do
  symbol '('
  let types ← committed (separatedSome comma returnType)
  committed (expect ')')
  return types

def functionName : Reader (List Char) := fun text =>
  match identifier (skipSpaces text) with
  | .ok name rest => .ok name rest
  | _ => .hard ⟨.expectedItem "function name", skipSpaces text⟩

def function : Reader Draft := do
  let start ← position
  keyword "function"
  let name ← functionName
  committed (expect '(')
  let params ← separated comma parameter
  committed (expect ')')
  let returns ← optional returnTypes
  let statements ← body statement
  return .node start (.function (String.ofList name) params (returns.getD [])) statements

/-- What may stand at the top of a text. -/
def item : Reader Draft := do
  spaces
  orElse comment function

def packageClause : Reader String := do
  keyword "package"
  committed do
    spaces
    let name ← packageName
    expect ';'
    return String.ofList name

def endOfText : Reader Unit
  | [] => .ok () []
  | text => .soft ⟨.expectedItem "function or comment", text⟩

/-- A whole text. -/
def compilationUnit : Reader Draft := do
  spaces
  let start ← position
  let package ← optional packageClause
  let items ← many item
  spaces
  endOfText
  return .node start (.compilationUnit package) items

end Reader
end ProgramTree
