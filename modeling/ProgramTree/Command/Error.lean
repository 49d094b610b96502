import ProgramTree.Settings
import ProgramTree.Source.ParseError
import ProgramTree.Walk.Basic

/-! # Failures of commands

Every way in which a command fails, with its message, its exit code and the
response that reports it. -/

namespace ProgramTree

set_option autoImplicit false

inductive CommandError
  | invalidArguments (message : String)
  | fileNotReadable (path message : String)
  | settings (path : String) (fault : SettingsFault)
  | parse (file : String) (error : ParseError)
  | malformed (error : MalformedNode)
  | structural (error : EditError)
  | traversal (error : WalkError)
  | internal (message : String)

namespace CommandError

/-- A parse error of a text that comes from no file. -/
def ofParse (error : ParseError) : CommandError :=
  .parse "<input>" error

def code : CommandError → Nat
  | invalidArguments _ | fileNotReadable .. | settings .. => 2
  | parse .. => 3
  | malformed _ | structural _ | traversal _ => 4
  | internal _ => 10

def message : CommandError → String
  | invalidArguments message => "invalid arguments: " ++ message
  | fileNotReadable path message => "cannot read " ++ path ++ ": " ++ message
  | settings path fault => "invalid config " ++ path ++ ": " ++ fault.message
  | parse file error => file ++ ":" ++ error.text
  | malformed error => error.message
  | structural error => error.message
  | traversal error => error.message
  | internal message => "internal error: " ++ message

/-- What a response says about the failure; a parse error keeps its place apart. -/
def details (e : CommandError) : List (String × Json) :=
  match e with
  | .parse file error =>
    [("code", .int e.code), ("message", .string error.message),
      ("location", .object [("file", .string file), ("line", .int error.line),
        ("col", .int error.column)])]
  | _ => [("code", .int e.code), ("message", .string e.message)]

def json (e : CommandError) : Json :=
  .object [("status", .string "error"), ("schema_version", .string "1"),
    ("error", .object e.details)]

end CommandError

/-- A response as it is printed. -/
def Json.printed (response : Json) : String :=
  response.pretty ++ "\n"

end ProgramTree
