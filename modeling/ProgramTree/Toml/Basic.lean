/-! # TOML tables

Values of a TOML text, and how its lines build one table. A table may be opened
once by a header, may be made by the way to a deeper header, by a dotted key,
or written inline. These differ in what may still be added: nothing is added to
an inline table, dotted keys do not reach into a table with a header of its
own, and only a table that exists as a way may get its header later. -/

namespace ProgramTree

set_option autoImplicit false

/-- How a table came to be. -/
inductive TableForm
  | header
  | way
  | dotted
  | inline
  deriving DecidableEq, Repr

/-- Floats, booleans and times are kept apart from other values but not from each other. The
tables of an array of tables are kept in order. -/
inductive Toml
  | string (text : String)
  | integer (value : Int)
  | scalar
  | array (items : List Toml)
  | table (form : TableForm) (entries : List (String × Toml))
  | tables (items : List (List (String × Toml)))

namespace Toml

abbrev Entries : Type :=
  List (String × Toml)

def hasKey (entries : Entries) (key : String) : Bool :=
  (entries.lookup key).isSome

/-- Puts a value in the place of the one under a key. -/
def replace (entries : Entries) (key : String) (value : Toml) : Entries :=
  entries.map fun (k, v) => if k = key then (k, value) else (k, v)

/-- Follows a way of keys, by a dotted key or by a header, making the tables that are missing,
and changes the table at its end. -/
def descend (dotted : Bool) (change : TableForm → Entries → Option Entries) :
    List String → TableForm → Entries → Option Entries
  | [], form, entries => change form entries
  | key :: rest, _, entries =>
    match entries.lookup key with
    | none =>
      let form := if dotted then .dotted else .way
      (descend dotted change rest form []).map fun inner => entries ++ [(key, .table form inner)]
    | some (.table form inner) =>
      if form = .inline ∨ (dotted ∧ form = .header) then none
      else (descend dotted change rest form inner).map fun inner =>
        replace entries key (.table form inner)
    | some (.tables items) =>
      match items.getLast? with
      | none => none
      | some inner =>
        (descend dotted change rest .header inner).map fun inner =>
          replace entries key (.tables (items.dropLast ++ [inner]))
    | some _ => none

/-- Adds a value under a new key of a table that was reached by a dotted key or directly. -/
def addValue (dotted : Bool) (key : String) (value : Toml) (form : TableForm) (entries : Entries) :
    Option Entries :=
  if dotted == (form == .dotted) && !hasKey entries key then some (entries ++ [(key, value)])
  else none

/-- Opens a table by its header. -/
def addTable (key : String) (_ : TableForm) (entries : Entries) : Option Entries :=
  match entries.lookup key with
  | none => some (entries ++ [(key, .table .header [])])
  | some (.table .way inner) => some (replace entries key (.table .header inner))
  | some _ => none

/-- Opens one more table of an array of tables. -/
def addElement (key : String) (_ : TableForm) (entries : Entries) : Option Entries :=
  match entries.lookup key with
  | none => some (entries ++ [(key, .tables [[]])])
  | some (.tables items) => some (replace entries key (.tables (items ++ [[]])))
  | some _ => none

/-- Adds a value under a dotted key. -/
def addPath (path : List String) (value : Toml) (form : TableForm) (entries : Entries) :
    Option Entries :=
  match path.reverse with
  | [] => none
  | key :: way =>
    descend true (addValue (!way.isEmpty) key value) way.reverse form entries

/-- What a line of a text says. -/
inductive Line
  | blank
  | entry (path : List String) (value : Toml)
  | header (path : List String)
  | element (path : List String)

/-- Adds the lines of a text to a table; the current table is the one of the last header. -/
def addLines : List Line → List String → Entries → Option Entries
  | [], _, entries => some entries
  | .blank :: lines, current, entries => addLines lines current entries
  | .entry path value :: lines, current, entries => do
    addLines lines current (← descend false (addPath path value) current .header entries)
  | .header path :: lines, _, entries => do
    let entries ← descend false (addTable (← path.getLast?)) path.dropLast .header entries
    addLines lines path entries
  | .element path :: lines, _, entries => do
    let entries ← descend false (addElement (← path.getLast?)) path.dropLast .header entries
    addLines lines path entries

/-- The inline table with the given entries. -/
def inlineTable? (pairs : List (List String × Toml)) : Option Toml :=
  (pairs.foldlM (fun entries (path, value) => addPath path value .inline entries) []).map
    (.table .inline)

end Toml
end ProgramTree
