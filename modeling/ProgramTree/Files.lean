/-! # Files

The files that the program can see: what lies at a path. A path is followed part
by part, from the top directory if it begins with a slash and otherwise from a
working directory. A part `.` or an empty one stays in a directory, `..` leaves
it unless it is the top, and nothing lies beneath a file. Names of more than 255
bytes and paths of more than 4095 bytes are refused. -/

namespace ProgramTree

set_option autoImplicit false

/-- What lies at a path: `beneathFile` if the path goes on after a file, `tooLong` if a name in it
or the whole is too long, `closed` if there is a directory in it that may not be entered or read,
and `unreadable` if there is a file that may not be read. -/
inductive FileEntry
  | missing
  | folder
  | beneathFile
  | tooLong
  | closed
  | unreadable
  | file (bytes : ByteArray)

/-- The entry at each path. -/
abbrev Files : Type :=
  String → FileEntry

/-- A place in the directories, by the names on the way from the top. -/
abbrev Place : Type :=
  List String

/-- The directories and files that there are. Every place on the way to one is a directory. -/
structure FileTree where
  folders : List Place
  files : List (Place × ByteArray)

namespace FileTree

/-- A directory with the files of the given names, and the directories that it lies in. -/
def ofList (home : Place) (files : List (String × ByteArray)) : FileTree :=
  ⟨[home], files.map fun (name, bytes) => (home ++ name.splitOn "/", bytes)⟩

def file? (t : FileTree) (place : Place) : Option ByteArray :=
  t.files.lookup place

def isFolder (t : FileTree) (place : Place) : Bool :=
  t.folders.any (place.isPrefixOf ·) || t.files.any (place.isPrefixOf ·.1)

/-- The entry that the rest of a path leads to from a place. -/
def follow (t : FileTree) (place : Place) : List String → FileEntry
  | [] =>
    match t.file? place with
    | some bytes => .file bytes
    | none => if t.isFolder place then .folder else .missing
  | part :: rest =>
    if (t.file? place).isSome then .beneathFile
    else if !t.isFolder place then .missing
    else if part = "" ∨ part = "." then t.follow place rest
    else if part = ".." then t.follow place.dropLast rest
    else if part.utf8ByteSize > 255 then .tooLong
    else t.follow (place ++ [part]) rest

end FileTree

namespace Files

/-- The entries for a program that is run in the given directory. -/
def ofTree (t : FileTree) (home : Place) : Files := fun path =>
  if path.isEmpty then .missing
  else if path.utf8ByteSize > 4095 then .tooLong
  else t.follow (if path.startsWith "/" then [] else home) (path.splitOn "/")

/-- Whether there is a file, which need not be one that may be read. -/
def isFile (files : Files) (path : String) : Bool :=
  match files path with
  | .file _ | .unreadable => true
  | .missing | .folder | .beneathFile | .tooLong | .closed => false

/-- The text of a file, or why there is none. -/
def read (files : Files) (path : String) : Except String String :=
  if path.contains '\x00' then .error "file name contained an unexpected NUL byte"
  else match files path with
  | .missing => .error "No such file or directory (os error 2)"
  | .folder => .error "Is a directory (os error 21)"
  | .beneathFile => .error "Not a directory (os error 20)"
  | .tooLong => .error "File name too long (os error 36)"
  | .closed | .unreadable => .error "Permission denied (os error 13)"
  | .file bytes =>
    match String.fromUTF8? bytes with
    | some text => .ok text
    | none => .error "stream did not contain valid UTF-8"

end Files
end ProgramTree
