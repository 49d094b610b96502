import ProgramTree.Walk.Basic

/-! # Outlines

An outline has one entry for every node that is shown, with a short label on one
line. A collapsed entry stands for all that lies beneath its node; only a node
that has children can be collapsed. -/

namespace ProgramTree

set_option autoImplicit false

inductive OutlineEntry
  | entry (id : NodeId) (kind : NodeKind) (label : String) (collapsed : Bool) (childCount : Nat)
      (children : List OutlineEntry)

namespace Outline

def parameterList (params : List Parameter) : String :=
  ", ".intercalate (params.map fun p => p.typeName ++ " " ++ p.name)

/-- A short description of a node. -/
def label : Payload → String
  | .compilationUnit none => "unit"
  | .compilationUnit (some package) => "package " ++ package
  | .function name params [] => "function " ++ name ++ "(" ++ parameterList params ++ ")"
  | .function name params returns =>
    "function " ++ name ++ "(" ++ parameterList params ++ ") (" ++ ", ".intercalate returns ++ ")"
  | .block => "block"
  | .ifStatement condition => "if (" ++ condition.text ++ ")"
  | .elseIfClause condition => "else if (" ++ condition.text ++ ")"
  | .elseClause => "else"
  | .whileLoop condition => "while (" ++ condition.text ++ ")"
  | .assignment target value => target.text ++ " = " ++ value.text
  | .variableDefinition typeName name none => typeName ++ " " ++ name
  | .variableDefinition typeName name (some initializer) =>
    typeName ++ " " ++ name ++ " = " ++ initializer.text
  | .callStatement expression => expression.text
  | .returnStatement [] => "return"
  | .returnStatement values => "return " ++ ", ".intercalate (values.map Expression.text)
  | .replyStatement value => "reply " ++ value.text
  | .breakStatement => "break"
  | .continueStatement => "continue"
  | .throwStatement value => "throw " ++ value.text
  | .tryStatement => "try"
  | .catchClause typeName name => "catch (" ++ typeName ++ " " ++ name ++ ")"
  | .comment text => if text.isEmpty then "//" else "// " ++ text

end Outline

namespace OutlineEntry

/-- The entry with one more child at the end. -/
def addChild : OutlineEntry → OutlineEntry → OutlineEntry
  | entry id kind label collapsed count children, child =>
    entry id kind label collapsed count (children ++ [child])

/-- The line of an entry, two spaces in for each level. -/
def line (level : Nat) (label : String) (id : NodeId) (collapsed : Bool) (count : Nat) : String :=
  String.ofList (List.replicate (2 * level) ' ') ++ label ++ " [" ++ id.text ++ "]" ++
    (if collapsed then " (+" ++ toString count ++ ")" else "") ++ "\n"

mutual

/-- The lines of an entry and all beneath it, each entry before its children. -/
def textAt (level : Nat) : OutlineEntry → String
  | entry id _ label collapsed count children =>
    line level label id collapsed count ++ textAllAt (level + 1) children

def textAllAt (level : Nat) : List OutlineEntry → String
  | [] => ""
  | e :: es => e.textAt level ++ textAllAt level es

end

def text (e : OutlineEntry) : String :=
  e.textAt 0

/-- The fields of the written form apart from the children. -/
def ownFields (id : NodeId) (kind : NodeKind) (label : String) (collapsed : Bool) (count : Nat) :
    List (String × Json) :=
  [("id", .string id.text), ("kind", .string kind.name), ("label", .string label),
    ("collapsed", .bool collapsed), ("child_count", .int count)]

mutual

/-- The written form; an entry without children has no list of them. -/
def json : OutlineEntry → Json
  | entry id kind label collapsed count [] => .object (ownFields id kind label collapsed count)
  | entry id kind label collapsed count (e :: es) =>
    .object (ownFields id kind label collapsed count ++
      [("children", .array (e.json :: jsons es))])

def jsons : List OutlineEntry → List Json
  | [] => []
  | e :: es => e.json :: jsons es

end

end OutlineEntry

/-- An outline in the making: the open entries, innermost first, and the finished top entry. -/
structure OutlineRenderer where
  stack : List OutlineEntry
  root : Option OutlineEntry

namespace OutlineRenderer

def empty : OutlineRenderer :=
  ⟨[], none⟩

/-- Whether a node is to be shown without what lies beneath it. -/
def isCollapsed (kinds : List NodeKind) (ids : List NodeId) (site : Site) : Bool :=
  !(site.tree.children site.id).isEmpty && (kinds.contains site.kind || ids.contains site.id)

def entryOf (site : Site) (collapsed : Bool) : OutlineEntry :=
  .entry site.id site.kind (Outline.label site.payload) collapsed
    (site.tree.children site.id).length []

/-- Puts the innermost open entry under the one around it. -/
def close (r : OutlineRenderer) : OutlineRenderer :=
  match r.stack with
  | [] => r
  | [done] => ⟨[], some done⟩
  | done :: parent :: rest => ⟨parent.addChild done :: rest, r.root⟩

def visitor (kinds : List NodeKind) (ids : List NodeId) : Visitor OutlineRenderer where
  visit site r :=
    let collapsed := isCollapsed kinds ids site
    (.ok (.ofDescend !collapsed), { r with stack := entryOf site collapsed :: r.stack })
  leave _ r := r.close

end OutlineRenderer

/-- The outline of the branch of a node, with nodes of the given kinds and the given nodes
collapsed. -/
def Tree.outline (t : Tree) (id : NodeId) (kinds : List NodeKind) (ids : List NodeId) :
    Except WalkError (OutlineEntry × WalkSummary) :=
  match t.walk id (OutlineRenderer.visitor kinds ids) .empty with
  | (.error e, _) => .error e
  | (.ok summary, r) =>
    match r.root with
    | some root => .ok (root, summary)
    | none => .error (.unknownNode id)

end ProgramTree
