import ProgramTree.Walk.Basic

/-! # Texts from trees

A writer is a visitor that writes source text as it goes. A body is opened by
its header and closed by a brace on a line of its own; a clause closes the
body before it and opens its own on one line, and is itself closed by the
statement it belongs to. Items of a unit are set apart by blank lines, except
directly after a comment. -/

namespace ProgramTree

set_option autoImplicit false

/-- The text written so far, the number of bodies that are open, and whether the last item
of a unit was a comment. -/
structure SourceWriter where
  text : String
  depth : Nat
  afterComment : Bool

namespace SourceWriter

def empty : SourceWriter :=
  ⟨"", 0, false⟩

/-- Writes one line, indented by four spaces for each open body. -/
def line (w : SourceWriter) (content : String) : SourceWriter :=
  { w with text := w.text ++ String.ofList (List.replicate (4 * w.depth) ' ') ++ content ++ "\n" }

/-- A blank line before an item of a unit. -/
def separate (w : SourceWriter) (site : Site) : SourceWriter :=
  match (site.tree.parent? site.id).bind site.tree.kind? with
  | some .compilationUnit =>
    { w with
      text := if w.text.isEmpty || w.afterComment then w.text else w.text ++ "\n"
      afterComment := site.kind == .comment }
  | _ => w

def openBody (w : SourceWriter) (header : String) : SourceWriter :=
  let w := w.line header
  { w with depth := w.depth + 1 }

def closeBody (w : SourceWriter) : SourceWriter :=
  { w with depth := w.depth - 1 }.line "\x7d"

/-- Closes the body before a clause and opens that of the clause. -/
def clause (w : SourceWriter) (header : String) : SourceWriter :=
  { w with depth := w.depth - 1 }.openBody ("\x7d " ++ header ++ " \x7b")

def functionHeader (name : String) (params : List Parameter) (returns : List String) : String :=
  let params := ", ".intercalate (params.map fun p => p.typeName ++ " " ++ p.name)
  let returns := if returns.isEmpty then "" else " (" ++ ", ".intercalate returns ++ ")"
  "function " ++ name ++ "(" ++ params ++ ")" ++ returns ++ " \x7b"

/-- The line that a node begins with, without the braces around that of a clause. -/
def heading : Payload → String
  | .compilationUnit none => ""
  | .compilationUnit (some package) => "package " ++ package ++ ";"
  | .function name params returns => functionHeader name params returns
  | .block => "\x7b"
  | .ifStatement condition => "if (" ++ condition.text ++ ") \x7b"
  | .elseIfClause condition => "else if (" ++ condition.text ++ ")"
  | .elseClause => "else"
  | .whileLoop condition => "while (" ++ condition.text ++ ") \x7b"
  | .tryStatement => "try \x7b"
  | .catchClause typeName name => "catch (" ++ typeName ++ " " ++ name ++ ")"
  | .assignment target value => target.text ++ " = " ++ value.text ++ ";"
  | .variableDefinition typeName name none => typeName ++ " " ++ name ++ ";"
  | .variableDefinition typeName name (some initializer) =>
    typeName ++ " " ++ name ++ " = " ++ initializer.text ++ ";"
  | .callStatement expression => expression.text ++ ";"
  | .returnStatement [] => "return;"
  | .returnStatement (value :: values) =>
    "return " ++ ", ".intercalate (Expression.texts (value :: values)) ++ ";"
  | .replyStatement value => "reply " ++ value.text ++ ";"
  | .breakStatement => "break;"
  | .continueStatement => "continue;"
  | .throwStatement value => "throw " ++ value.text ++ ";"
  | .comment text => if text.isEmpty then "//" else "// " ++ text

/-- What is written when a node is entered. -/
def enter (site : Site) (w : SourceWriter) : SourceWriter :=
  let heading := heading site.payload
  match site.payload with
  | .compilationUnit none => w
  | .function .. => (w.separate site).openBody heading
  | .block | .ifStatement _ | .whileLoop _ | .tryStatement => w.openBody heading
  | .elseIfClause _ | .elseClause | .catchClause .. => w.clause heading
  | .comment _ => (w.separate site).line heading
  | _ => w.line heading

/-- Writes nodes that have no body of their own to close: those without one, and the clauses. -/
def plain : Visitor SourceWriter where
  visit site w := (.ok .proceed, w.enter site)
  leave _ w := w

/-- Writes nodes whose body is closed when they are left. -/
def bodied : Visitor SourceWriter where
  visit site w := (.ok .proceed, w.enter site)
  leave _ w := w.closeBody

/-- How the nodes of each kind are written. -/
def handler? : NodeKind → Option (Visitor SourceWriter)
  | .function | .block | .ifStatement | .whileLoop | .tryStatement => some bodied
  | .compilationUnit | .elseIfClause | .elseClause | .catchClause | .assignment
  | .variableDefinition | .callStatement | .returnStatement | .replyStatement | .breakStatement
  | .continueStatement | .throwStatement | .comment => some plain

def visitor : Visitor SourceWriter :=
  .byKind "duet_syntax::codegen::SourceGenerator" handler?

end SourceWriter

/-- The source text of the branch of a node. -/
def Tree.source (t : Tree) (id : NodeId) : Except WalkError String :=
  match t.walk id SourceWriter.visitor .empty with
  | (.ok _, w) => .ok w.text
  | (.error e, _) => .error e

end ProgramTree
