import ProgramTree.Grammar.Expression

/-! # Places in a text

A place is given to users as a line and a column, both counted from one.
Lines end at line feeds only, and columns count characters. -/

namespace ProgramTree

set_option autoImplicit false

structure ParseError where
  line : Nat
  column : Nat
  message : String
  deriving DecidableEq, Repr

namespace ParseError

/-- The error at the place that a number of characters comes before. -/
def atOffset (source : List Char) (offset : Nat) (message : String) : ParseError :=
  let before := source.take offset
  { line := before.count '\n' + 1
    column := (before.reverse.takeWhile (· != '\n')).length + 1
    message }

/-- The error at the place where a number of characters are left. -/
def atRest (source : List Char) (remaining : Nat) (message : String) : ParseError :=
  ParseError.atOffset source (source.length - remaining) message

def ofFailure (source : List Char) (failure : Failure) : ParseError :=
  atRest source failure.rest.length failure.complaint.message

/-- The error with its place in front. -/
def text (e : ParseError) : String :=
  toString e.line ++ ":" ++ toString e.column ++ ": " ++ e.message

end ParseError

/-- Runs a reader that has to take the whole text. -/
def Reader.run {α : Type} (reader : Reader α) (source : List Char) : Except ParseError α :=
  match reader source with
  | .ok a [] => .ok a
  | .ok _ rest => .error (.ofFailure source ⟨.unexpected, rest⟩)
  | .soft failure | .hard failure => .error (.ofFailure source failure)

/-- The expression that a text spells, with blanks allowed around it. -/
def parseExpression (source : String) : Except ParseError Expression :=
  Reader.run (do
    let e ← Reader.expression
    Reader.spaces
    return e) source.toList

end ProgramTree
