import ProgramTree.Command.Basic

/-! # The command line

Arguments are read from the left. An option is written as `--name value` or as
`--name=value`, and its value must not look like an option unless it is
written with the equals sign. Options of all commands may stand before the
command or after it; those after it win. Except for the repeatable ones an
option is given at most once in each place. After two dashes on their own every
argument is a file. -/

namespace ProgramTree

set_option autoImplicit false

namespace CommandLine

inductive LogLevel
  | trace
  | debug
  | info
  | warn
  | error
  deriving DecidableEq, Repr

namespace LogLevel

def all : List (String × LogLevel) :=
  [("trace", trace), ("debug", debug), ("info", info), ("warn", warn), ("error", error)]

def ofName? (name : String) : Option LogLevel :=
  all.lookup name

/-- Whether the end of a command is logged. -/
def logsCommands : LogLevel → Bool
  | trace | debug | info => true
  | warn | error => false

end LogLevel

inductive ReportFormat
  | json
  | text
  deriving DecidableEq, Repr

namespace ReportFormat

def all : List (String × ReportFormat) :=
  [("json", json), ("text", text)]

def ofName? (name : String) : Option ReportFormat :=
  all.lookup name

end ReportFormat

inductive CommandName
  | outline
  | check
  | format
  | dump
  deriving DecidableEq, Repr

namespace CommandName

def all : List (String × CommandName) :=
  [("outline", outline), ("check", check), ("fmt", format), ("dump", dump)]

def ofName? (name : String) : Option CommandName :=
  all.lookup name

end CommandName

inductive Flag
  | config
  | logLevel
  | collapse
  | maxDepth
  | disable
  | format
  deriving DecidableEq, Repr

/-- A count: digits, maybe after a plus, that fit in 64 bits. -/
def count? (text : String) : Option Nat :=
  let digits := match text.toList with
    | '+' :: rest => rest
    | rest => rest
  let value := Nat.ofDigitChars 10 digits 0
  if !digits.isEmpty && digits.all Char.isDigit && value < UInt64.size then some value else none

namespace Flag

def name : Flag → String
  | config => "config"
  | logLevel => "log-level"
  | collapse => "collapse"
  | maxDepth => "max-depth"
  | disable => "disable"
  | format => "format"

def isRepeatable : Flag → Bool
  | collapse | disable => true
  | _ => false

/-- Whether a text is a value of the option. -/
def accepts (flag : Flag) (value : String) : Bool :=
  match flag with
  | config => !value.isEmpty
  | logLevel => (LogLevel.ofName? value).isSome
  | collapse => (NodeKind.ofName? value).isSome
  | maxDepth => (count? value).isSome
  | disable => (Rule.ofName? value).isSome
  | format => (ReportFormat.ofName? value).isSome

/-- The options of every command, and those of one of them. -/
def allowed : Option CommandName → List Flag
  | none => [config, logLevel]
  | some .outline => [config, logLevel, collapse, format]
  | some .check => [config, logLevel, maxDepth, disable, format]
  | some .format => [config, logLevel, format]
  | some .dump => [config, logLevel]

end Flag

/-- Why no command is run. -/
inductive Halt
  | usage (message : String)
  | help
  | version
  deriving DecidableEq, Repr

/-- What an argument looks like on its own. -/
inductive Word
  | escape
  | long (name : String) (value : Option String)
  | short (letter : Char)
  | plain (text : String)
  deriving DecidableEq, Repr

def Word.ofArgument (text : String) : Word :=
  match text.toList with
  | ['-', '-'] => .escape
  | '-' :: '-' :: rest =>
    let name := String.ofList (rest.takeWhile (· != '='))
    match rest.dropWhile (· != '=') with
    | [] => .long name none
    | _ :: value => .long name (some (String.ofList value))
  | '-' :: letter :: _ => .short letter
  | _ => .plain text

/-- The options given so far, and the file. -/
structure Given where
  flags : List (Flag × String)
  file : Option String

namespace Given

def none : Given :=
  ⟨[], .none⟩

def value? (g : Given) (flag : Flag) : Option String :=
  g.flags.lookup flag

def values (g : Given) (flag : Flag) : List String :=
  (g.flags.filter fun (f, _) => f = flag).map Prod.snd

def addFlag (g : Given) (flag : Flag) (value : String) : Except Halt Given :=
  if !flag.isRepeatable && (g.value? flag).isSome then
    .error (.usage ("the option --" ++ flag.name ++ " is given more than once"))
  else if flag.accepts value then .ok { g with flags := g.flags ++ [(flag, value)] }
  else .error (.usage ("'" ++ value ++ "' is no value of --" ++ flag.name))

def addFile (g : Given) (file : String) : Except Halt Given :=
  if file.isEmpty then .error (.usage "a file needs a name")
  else if g.file.isSome then .error (.usage ("unexpected argument '" ++ file ++ "'"))
  else .ok { g with file := some file }

def addFiles : Given → List String → Except Halt Given
  | g, [] => .ok g
  | g, file :: rest => do
    addFiles (← g.addFile file) rest

end Given

def findFlag (command : Option CommandName) (name : String) : Except Halt Flag :=
  match (Flag.allowed command).find? (·.name == name) with
  | some flag => .ok flag
  | none => .error (.usage ("unexpected argument '--" ++ name ++ "'"))

def shortHalt (command : Option CommandName) (letter : Char) : Halt :=
  if letter = 'h' then .help
  else if letter = 'V' ∧ command = none then .version
  else .usage ("unexpected argument '-" ++ String.singleton letter ++ "'")

/-- Reads the arguments of a command. -/
def readCommand (command : CommandName) (g : Given) : List String → Except Halt Given
  | [] => .ok g
  | [argument] =>
    match Word.ofArgument argument with
    | .escape => .ok g
    | .long "help" none => .error .help
    | .long name attached => do
      let flag ← findFlag command name
      match attached with
      | some value => g.addFlag flag value
      | none => .error (.usage ("the option --" ++ name ++ " needs a value"))
    | .short letter => .error (shortHalt command letter)
    | .plain file => g.addFile file
  | argument :: next :: rest =>
    match Word.ofArgument argument with
    | .escape => g.addFiles (next :: rest)
    | .long "help" none => .error .help
    | .long name (some value) => do
      let flag ← findFlag command name
      readCommand command (← g.addFlag flag value) (next :: rest)
    | .long name none => do
      let flag ← findFlag command name
      match Word.ofArgument next with
      | .plain value => readCommand command (← g.addFlag flag value) rest
      | _ => .error (.usage ("the option --" ++ name ++ " needs a value"))
    | .short letter => .error (shortHalt command letter)
    | .plain file => do
      readCommand command (← g.addFile file) (next :: rest)

def helpRequest : List String → Halt
  | [] => .help
  | [name] =>
    if name = "help" ∨ (CommandName.ofName? name).isSome then .help
    else .usage ("unrecognized command '" ++ name ++ "'")
  | _ :: name :: _ => .usage ("unexpected argument '" ++ name ++ "'")

/-- Reads the options before the command, the command and its arguments. -/
def readAll (g : Given) : List String → Except Halt (Given × CommandName × Given)
  | [] => .error (.usage "a command is needed")
  | argument :: rest =>
    match Word.ofArgument argument with
    | .escape => .error (.usage "unexpected argument '--'")
    | .long "help" none => .error .help
    | .long "version" none => .error .version
    | .long name (some value) => do
      let flag ← findFlag none name
      readAll (← g.addFlag flag value) rest
    | .long name none => do
      let flag ← findFlag none name
      match rest with
      | [] => .error (.usage ("the option --" ++ name ++ " needs a value"))
      | next :: rest =>
        match Word.ofArgument next with
        | .plain value => readAll (← g.addFlag flag value) rest
        | _ => .error (.usage ("the option --" ++ name ++ " needs a value"))
    | .short letter => .error (shortHalt none letter)
    | .plain name =>
      if name = "help" then .error (helpRequest rest)
      else
        match CommandName.ofName? name with
        | none => .error (.usage ("unrecognized command '" ++ name ++ "'"))
        | some command => do
          let own ← readCommand command .none rest
          return (g, command, own)

/-- A command with everything that it is told. -/
structure Invocation where
  command : CommandName
  file : String
  config : Option String
  logLevel : LogLevel
  overrides : Overrides
  format : ReportFormat

/-- What is printed where nobody asks for a format. -/
def usualFormat : CommandName → ReportFormat
  | .format => .text
  | _ => .json

def invocation (arguments : List String) : Except Halt Invocation := do
  let (common, command, own) ← readAll .none arguments
  let value? (flag : Flag) := (own.value? flag).or (common.value? flag)
  match own.file with
  | none => throw (.usage "a file is needed")
  | some file =>
    return {
      command
      file
      config := value? .config
      logLevel := ((value? .logLevel).bind LogLevel.ofName?).getD .warn
      overrides := {
        maxDepth := (own.value? .maxDepth).bind count?
        disabled := (own.values .disable).filterMap Rule.ofName?
        collapse := (own.values .collapse).filterMap NodeKind.ofName? }
      format := ((own.value? .format).bind ReportFormat.ofName?).getD (usualFormat command) }

namespace Invocation

/-- The paths that the command may read. -/
def paths (i : Invocation) : List String :=
  [i.config.getD Settings.usualPath, i.file]

/-- The settings of the commands that depend on them. -/
def settings (i : Invocation) (files : Files) : Except CommandError Settings := do
  (← Settings.resolve files i.config).withOverrides i.overrides

def respond (i : Invocation) (files : Files) (settings : Except CommandError Settings) :
    Except CommandError Response :=
  match i.command with
  | .outline => do Command.outline files i.file (← settings)
  | .check => do Command.check files i.file (← settings)
  | .format => Command.format files i.file
  | .dump => Command.dump files i.file

end Invocation

/-- The end of a run: the exit code and what is printed. -/
structure Exit where
  code : Nat
  stdout : String
  stderr : String

/-- The code of a command that completes: findings are told by their own one. -/
def exitCode : Response → Nat
  | .check _ findings _ => if findings.isEmpty then 0 else 5
  | _ => 0

/-- What is printed of a response; a dump has only one format. -/
def printed (format : ReportFormat) (response : Response) : String :=
  match format with
  | .json => response.json.printed
  | .text => response.text

/-- What is logged of a command that got as far as its source file. -/
def logLine (i : Invocation) (settings : Except CommandError Settings) : String :=
  let started := match i.command, settings with
    | .outline, .error _ | .check, .error _ => false
    | _, _ => true
  if i.logLevel.logsCommands && started then "INFO " ++ i.file ++ ": close\n" else ""

def execute (i : Invocation) (files : Files) : Exit :=
  let settings := i.settings files
  let stderr := logLine i settings
  match i.respond files settings with
  | .ok response => ⟨exitCode response, printed i.format response, stderr⟩
  | .error e => ⟨e.code, e.json.printed, stderr⟩

def helpText : String :=
  "Inspect, check and reformat duet source files\n\n" ++
  "Usage: duet [OPTIONS] <COMMAND>\n\n" ++
  "Commands:\n" ++
  "  outline  Print the structural outline of a file\n" ++
  "  check    Lint a file\n" ++
  "  fmt      Print the canonical source of a file\n" ++
  "  dump     Print a JSON snapshot of the tree\n"

def halted : Halt → Exit
  | .usage message => ⟨2, "", "error: " ++ message ++ "\n"⟩
  | .help => ⟨0, helpText, ""⟩
  | .version => ⟨0, "duet 0.1.0\n", ""⟩

/-- A whole run of the program. -/
def run (arguments : List String) (files : Files) : Exit :=
  match invocation arguments with
  | .ok i => execute i files
  | .error halt => halted halt

end CommandLine
end ProgramTree
