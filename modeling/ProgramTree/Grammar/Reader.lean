import ProgramTree.Name

/-! # Readers

A reader takes a value off the front of a text. It may fail softly, and then
another reading of the same text may be tried, or hard, once the text has
committed itself to the reading. A failure keeps the text that was left where
it arose, so its place is known from the length of that text.

Repetition stops at the first soft failure and gives the text back from before
it. A repetition also stops when an item takes nothing off the text, so it ends
on every text whatever its items do. -/

namespace ProgramTree

set_option autoImplicit false

/-- What a text lacks at the place of a failure. -/
inductive Complaint
  | unexpected
  | expectedChar (c : Char)
  | expectedWord (word : String)
  | expectedItem (description : String)
  | invalidString
  deriving DecidableEq, Repr

def Complaint.message : Complaint → String
  | unexpected => "unexpected input"
  | expectedChar c => "expected `" ++ String.singleton c ++ "`"
  | expectedWord word => "expected `" ++ word ++ "`"
  | expectedItem description => "expected " ++ description
  | invalidString => "invalid string literal"

structure Failure where
  complaint : Complaint
  rest : List Char
  deriving DecidableEq

inductive Outcome (α : Type)
  | ok (value : α) (rest : List Char)
  | soft (failure : Failure)
  | hard (failure : Failure)

namespace Outcome

variable {α β : Type}

def map (f : α → β) : Outcome α → Outcome β
  | ok a rest => ok (f a) rest
  | soft failure => soft failure
  | hard failure => hard failure

/-- The same outcome without a way back: a soft failure becomes hard. -/
def committed : Outcome α → Outcome α
  | soft failure => hard failure
  | outcome => outcome

end Outcome

def Reader (α : Type) : Type :=
  List Char → Outcome α

namespace Reader

variable {α β : Type}

/-- A soft failure at the given text. -/
def unexpected (rest : List Char) : Outcome α :=
  .soft ⟨.unexpected, rest⟩

def succeed (a : α) : Reader α :=
  fun text => .ok a text

/-- Reads a value and goes on with a reader that depends on it. -/
def andThen (first : Reader α) (next : α → Reader β) : Reader β := fun text =>
  match first text with
  | .ok a rest => next a rest
  | .soft failure => .soft failure
  | .hard failure => .hard failure

instance : Monad Reader where
  pure := succeed
  bind := andThen

@[simp] theorem pure_apply (a : α) (text : List Char) : (pure a : Reader α) text = .ok a text := rfl

theorem bind_apply (first : Reader α) (next : α → Reader β) (text : List Char) :
    (first >>= next) text = andThen first next text := rfl

/-- The same reader without a way back. -/
def committed (item : Reader α) : Reader α :=
  fun text => (item text).committed

/-- The second reader where the first one fails softly. -/
def orElse (first second : Reader α) : Reader α := fun text =>
  match first text with
  | .soft _ => second text
  | outcome => outcome

/-- An item, or nothing where it fails softly. -/
def optional (item : Reader α) : Reader (Option α) := fun text =>
  match item text with
  | .ok a rest => .ok (some a) rest
  | .soft _ => .ok none text
  | .hard failure => .hard failure

/-- As many items as there are. -/
def many (item : Reader α) (text : List Char) : Outcome (List α) :=
  match item text with
  | .ok a rest =>
    if rest.length < text.length then
      match many item rest with
      | .ok as final => .ok (a :: as) final
      | .soft failure => .soft failure
      | .hard failure => .hard failure
    else .ok [] text
  | .soft _ => .ok [] text
  | .hard failure => .hard failure
termination_by text.length

/-- Items with a separator between each two; none where the first one fails softly. -/
def separated (separator : Reader Unit) (item : Reader α) : Reader (List α) := fun text =>
  match item text with
  | .ok a rest => (do
      let others ← many (do separator; item)
      return a :: others : Reader (List α)) rest
  | .soft _ => .ok [] text
  | .hard failure => .hard failure

/-- Items with a separator between each two, and at least one. -/
def separatedSome (separator : Reader Unit) (item : Reader α) : Reader (List α) := do
  let first ← item
  let others ← many (do separator; item)
  return first :: others

/-- The number of characters that are left. -/
def position : Reader Nat :=
  fun text => .ok text.length text

/-- Restricts a reader to texts shorter than the given one. -/
def below (text : List Char) (inner : (rest : List Char) → rest.length < text.length → Outcome α) :
    Reader α := fun rest =>
  if h : rest.length < text.length then inner rest h else unexpected rest

end Reader
end ProgramTree
