import ProgramTree.Walk.Basic

/-! # Lint

Four rules on the statements of a tree: no statement after one that ends the
flow of its list, no loop control outside of a loop, no body without a
statement, and no nesting beyond a limit. The linter is a visitor that counts
the loops and the nesting levels it is in. The ancestors of the node where it
starts count too, so a part gives the findings that it has as a part of the
whole. -/

namespace ProgramTree

set_option autoImplicit false

inductive Rule
  | unreachableCode
  | loopControlOutsideLoop
  | emptyBody
  | maxDepth
  deriving DecidableEq, Repr

namespace Rule

def all : List Rule :=
  [unreachableCode, loopControlOutsideLoop, emptyBody, maxDepth]

def name : Rule → String
  | unreachableCode => "unreachable-code"
  | loopControlOutsideLoop => "loop-control-outside-loop"
  | emptyBody => "empty-body"
  | maxDepth => "max-depth"

def ofName? (text : String) : Option Rule :=
  all.find? (·.name == text)

/-- The message for a text that names no rule. -/
def unknownMessage (text : String) : String :=
  "unknown lint rule '" ++ text ++ "'"

end Rule

structure LintSettings where
  maxDepth : Nat
  disabled : List Rule
  deriving DecidableEq, Repr

structure Finding where
  rule : Rule
  node : NodeId
  kind : NodeKind
  message : String
  deriving DecidableEq, Repr

namespace Finding

/-- The finding on one line. -/
def text (f : Finding) : String :=
  f.node.text ++ " [" ++ f.rule.name ++ "] " ++ f.kind.name ++ ": " ++ f.message

def json (f : Finding) : Json :=
  .object [("rule", .string f.rule.name), ("node", .string f.node.text),
    ("kind", .string f.kind.name), ("message", .string f.message)]

end Finding

/-- The loops and nesting levels around the node that is visited, and the findings so far. -/
structure Linter where
  loops : Nat
  nesting : Nat
  findings : List Finding

namespace Linter

/-- Kinds that add a nesting level to what is inside them. -/
def nests : NodeKind → Bool
  | .whileLoop | .ifStatement | .block | .tryStatement => true
  | _ => false

/-- Kinds whose body has to hold a statement. -/
def needsBody : NodeKind → Bool
  | .function | .whileLoop | .ifStatement | .elseIfClause | .elseClause | .catchClause => true
  | _ => false

/-- Adds a finding, unless its rule is disabled. -/
def report (settings : LintSettings) (rule : Rule) (site : Site) (message : String) (l : Linter) :
    Linter :=
  if settings.disabled.contains rule then l
  else { l with findings := l.findings ++ [⟨rule, site.id, site.kind, message⟩] }

/-- The kind of the nearest sibling before a node that is no comment. -/
def previousKind? (t : Tree) (id : NodeId) : Option NodeKind :=
  let siblings := ((t.parent? id).map t.children).getD []
  ((siblings.takeWhile (· != id)).reverse.filterMap t.kind?).find? (· != .comment)

def checkReachable (settings : LintSettings) (site : Site) (l : Linter) : Linter :=
  if site.kind.isStatement && site.kind != .comment then
    match previousKind? site.tree site.id with
    | some before =>
      if before.isTerminator then
        l.report settings .unreachableCode site
          ("unreachable " ++ site.kind.name ++ " after " ++ before.name)
      else l
    | none => l
  else l

def checkBody (settings : LintSettings) (site : Site) (l : Linter) : Linter :=
  let statements := (site.tree.statements site.id).filterMap site.tree.kind?
  if needsBody site.kind && statements.all (· == .comment) then
    l.report settings .emptyBody site (site.kind.name ++ " has an empty body")
  else l

/-- Enters one more nesting level; only the first one beyond the limit is reported. -/
def enterNested (settings : LintSettings) (site : Site) (l : Linter) : Linter :=
  let nesting := l.nesting + 1
  let l := { l with nesting }
  if nesting = settings.maxDepth + 1 then
    l.report settings .maxDepth site
      ("nesting level " ++ toString nesting ++ " exceeds the limit of " ++
        toString settings.maxDepth)
  else l

def checkLoopControl (settings : LintSettings) (site : Site) (l : Linter) : Linter :=
  if (site.kind == .breakStatement || site.kind == .continueStatement) && l.loops == 0 then
    l.report settings .loopControlOutsideLoop site (site.kind.name ++ " outside of a while loop")
  else l

def enter (settings : LintSettings) (site : Site) (l : Linter) : Linter :=
  let l := (l.checkReachable settings site).checkBody settings site
  let l := if nests site.kind then l.enterNested settings site else l
  let l := if site.kind = .whileLoop then { l with loops := l.loops + 1 } else l
  l.checkLoopControl settings site

def exit (site : Site) (l : Linter) : Linter :=
  let l := if site.kind = .whileLoop then { l with loops := l.loops - 1 } else l
  if nests site.kind then { l with nesting := l.nesting - 1 } else l

def visitor (settings : LintSettings) : Visitor Linter where
  visit site l := (.ok .proceed, l.enter settings site)
  leave site l := l.exit site

end Linter

/-- The findings in the branch of a node. -/
def Tree.lint (t : Tree) (id : NodeId) (settings : LintSettings) :
    Except WalkError (List Finding × WalkSummary) :=
  let above := (t.ancestors id).filterMap t.kind?
  let start : Linter := ⟨above.count .whileLoop, above.countP Linter.nests, []⟩
  match t.walk id (Linter.visitor settings) start with
  | (.error e, _) => .error e
  | (.ok summary, l) => .ok (l.findings, summary)

end ProgramTree
