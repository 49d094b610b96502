import ProgramTree.Command.Error
import ProgramTree.Files
import ProgramTree.Outline
import ProgramTree.Source.Build
import ProgramTree.Source.Writer

/-! # Commands

Each command reads a source file, builds its tree and answers with one view of
it. Settings come from the file that is asked for, else from `duet.toml` in the
directory if there is one, else they are the defaults. -/

namespace ProgramTree

set_option autoImplicit false

inductive Response
  | outline (file : String) (root : OutlineEntry) (summary : WalkSummary)
  | check (file : String) (findings : List Finding) (summary : WalkSummary)
  | format (file : String) (changed : Bool) (source : String)
  | dump (file : String) (tree : Snapshot)

namespace Response

def summaryJson (summary : WalkSummary) : Json :=
  .object [("visited", .int summary.visited), ("skipped", .int summary.skipped)]

/-- The fields with which every response begins. -/
def head (status file : String) : List (String × Json) :=
  [("status", .string status), ("schema_version", .string "1"), ("file", .string file)]

def json : Response → Json
  | outline file root summary =>
    .object (head "ok" file ++ [("summary", summaryJson summary), ("outline", root.json)])
  | check file findings summary =>
    .object (head (if findings.isEmpty then "ok" else "findings") file ++
      [("summary", summaryJson summary), ("findings", .array (findings.map Finding.json))])
  | format file changed source =>
    .object (head "ok" file ++ [("changed", .bool changed), ("source", .string source)])
  | dump file tree =>
    .object (head "ok" file ++ [("nodes", .int tree.size), ("tree", tree.json)])

/-- The response for reading by people. -/
def text : Response → String
  | outline _ root _ => root.text
  | check file findings _ => String.join (findings.map fun f => file ++ ": " ++ f.text ++ "\n")
  | format _ _ source => source
  | dump _ tree => tree.json.printed

end Response

namespace Settings

def load (files : Files) (path : String) : Except CommandError Settings :=
  match files.read path with
  | .error message => .error (.settings path (.unreadable message))
  | .ok text =>
    match ofText text with
    | .error fault => .error (.settings path fault)
    | .ok settings => .ok settings

/-- The path at which settings lie that nobody asked for. -/
def usualPath : String :=
  "./duet.toml"

/-- The settings of a run: a file that is asked for has to exist. -/
def resolve (files : Files) : Option String → Except CommandError Settings
  | some path => load files path
  | none => if files.isFile usualPath then load files usualPath else .ok default

def withOverrides (s : Settings) (o : Overrides) : Except CommandError Settings :=
  match s.override? o with
  | some settings => .ok settings
  | none => .error (.invalidArguments "--max-depth must be at least 1")

end Settings

namespace Command

/-- The text of a source file and its tree. -/
def loadTree (files : Files) (path : String) : Except CommandError (String × Tree) :=
  match files.read path with
  | .error message => .error (.fileNotReadable path message)
  | .ok source =>
    match buildTree source with
    | .error e => .error (.parse path e)
    | .ok t => .ok (source, t)

def outline (files : Files) (path : String) (settings : Settings) :
    Except CommandError Response := do
  let (_, t) ← loadTree files path
  match t.outline t.root settings.outline.collapse [] with
  | .ok (root, summary) => return .outline path root summary
  | .error e => throw (.traversal e)

def check (files : Files) (path : String) (settings : Settings) :
    Except CommandError Response := do
  let (_, t) ← loadTree files path
  match t.lint t.root settings.lint with
  | .ok (findings, summary) => return .check path findings summary
  | .error e => throw (.traversal e)

def format (files : Files) (path : String) : Except CommandError Response := do
  let (source, t) ← loadTree files path
  match t.source t.root with
  | .ok formatted => return .format path (source != formatted) formatted
  | .error e => throw (.traversal e)

def dump (files : Files) (path : String) : Except CommandError Response := do
  let (_, t) ← loadTree files path
  match t.snapshot? t.root with
  | some snapshot => return .dump path snapshot
  | none => throw (.traversal (.unknownNode t.root))

end Command
end ProgramTree
