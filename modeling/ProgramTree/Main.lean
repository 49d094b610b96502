import ProgramTree.CommandLine

/-! # The program

Reads the files that the arguments ask for and prints what the run gives. -/

set_option autoImplicit false

/-- What lies at a path that may not be read. A file is one that no path goes on from, even if it
may not be read itself. -/
def deniedEntry (path : String) : IO ProgramTree.FileEntry :=
  try
    discard <| IO.FS.readBinFile (path ++ "/.")
    return .closed
  catch
    | .inappropriateType (some _) .. => return .unreadable
    | _ => return .closed

/-- What lies at a path. A folder can be opened but not read, so the error for it names no path. -/
def readEntry (path : String) : IO ProgramTree.FileEntry :=
  try
    return .file (← IO.FS.readBinFile path)
  catch
    | .noFileOrDirectory .. => return .missing
    | .inappropriateType none .. => return .folder
    | .inappropriateType (some _) .. => return .beneathFile
    | .invalidArgument .. => return .tooLong
    | _ => deniedEntry path

def main (arguments : List String) : IO UInt32 := do
  let paths := match ProgramTree.CommandLine.invocation arguments with
    | .ok invocation => invocation.paths
    | .error _ => []
  let entries ← paths.mapM fun path => do return (path, ← readEntry path)
  let exit := ProgramTree.CommandLine.run arguments fun path => (entries.lookup path).getD .missing
  (← IO.getStdout).putStr exit.stdout
  (← IO.getStderr).putStr exit.stderr
  return exit.code.toUInt32
