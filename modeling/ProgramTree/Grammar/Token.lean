import ProgramTree.Grammar.Reader

/-! # Tokens

Blanks are spaces, tabs and line ends, and may stand before a token but not
inside one. A symbol is a fixed character. A word is a longest run of letters,
digits and underscores, so a keyword is never the beginning of a longer word. -/

namespace ProgramTree

set_option autoImplicit false

namespace Reader

def isSpace (c : Char) : Bool :=
  c == ' ' || c == '\t' || c == '\r' || c == '\n'

def skipSpaces (text : List Char) : List Char :=
  text.dropWhile isSpace

theorem length_skipSpaces_le (text : List Char) : (skipSpaces text).length ≤ text.length :=
  (List.dropWhile_suffix _).length_le

theorem length_of_skipSpaces {c : Char} {text rest : List Char} (h : skipSpaces text = c :: rest) :
    rest.length < text.length := by
  have hle := length_skipSpaces_le text
  rw [h, List.length_cons] at hle
  exact hle

def spaces : Reader Unit :=
  fun text => .ok () (skipSpaces text)

/-- A character after blanks, whose absence is reported with the given complaint. -/
def symbolOr (complaint : Complaint) (c : Char) : Reader Unit := fun text =>
  match skipSpaces text with
  | [] => .soft ⟨complaint, []⟩
  | d :: rest => if d = c then .ok () rest else .soft ⟨complaint, d :: rest⟩

def symbol (c : Char) : Reader Unit :=
  symbolOr .unexpected c

/-- A character that has to be there. -/
def expect (c : Char) : Reader Unit :=
  symbolOr (.expectedChar c) c

def word (text : List Char) : List Char :=
  text.takeWhile Name.isWordChar

def afterWord (text : List Char) : List Char :=
  text.dropWhile Name.isWordChar

def keyword (expected : String) : Reader Unit := fun text =>
  if word text = expected.toList then .ok () (afterWord text) else unexpected text

/-- A word that neither begins with a digit nor is reserved. -/
def identifier : Reader (List Char) := fun text =>
  let found := word text
  if found.isEmpty || found.head?.any Char.isDigit || Name.isKeyword found then unexpected text
  else .ok found (afterWord text)

/-- A colon and an identifier with no blanks around the colon. -/
def qualifier : Reader (List Char)
  | ':' :: rest => (do return ':' :: (← identifier) : Reader (List Char)) rest
  | text => unexpected text

/-- An identifier that may be followed by a colon and another one. -/
def qualified : Reader (List Char) := do
  let first ← identifier
  let second ← optional qualifier
  return first ++ second.getD []

/-- Pairs of brackets without blanks, and what follows them. -/
def takeBrackets : List Char → List Char × List Char
  | '[' :: ']' :: text =>
    let (pairs, rest) := takeBrackets text
    ('[' :: ']' :: pairs, rest)
  | text => ([], text)

def typeName : Reader (List Char) := do
  let base ← qualified
  fun text =>
    let (pairs, rest) := takeBrackets text
    .ok (base ++ pairs) rest

/-- A longest run of word characters and points. -/
def packageName : Reader (List Char) := fun text =>
  let isPart c := Name.isWordChar c || c == '.'
  match text.takeWhile isPart with
  | [] => unexpected text
  | name => .ok name (text.dropWhile isPart)

/-- Two slashes and the rest of the line. -/
def commentText : Reader (List Char)
  | '/' :: '/' :: rest =>
    let inLine c := c != '\n' && c != '\r'
    .ok (rest.takeWhile inLine) (rest.dropWhile inLine)
  | text => unexpected text

end Reader
end ProgramTree
