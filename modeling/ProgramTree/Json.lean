import ProgramTree.Decimal.Integer
import ProgramTree.Decimal.Shortest

/-! # JSON texts

Values with ordered fields, and their two written forms: compact, on one line
and without blanks, and pretty, with one item per line and an indentation of
two spaces. -/

namespace ProgramTree

set_option autoImplicit false

inductive Json
  | null
  | bool (value : Bool)
  | int (value : Int)
  | float (value : Binary64)
  | string (value : String)
  | array (items : List Json)
  | object (fields : List (String × Json))

namespace Json

/-- Numbers in JSON: positional from `0.00001` and below `10 ^ 16`, otherwise with a
signed exponent part; of two equally short texts the one with an even last digit. -/
def numbers : NumberLayout :=
  ⟨.toEven, -5, 16, true⟩

/-- Quotes, backslashes and controls are escaped, and nothing else. -/
def escape (c : Char) : List Char :=
  if c = '"' then ['\\', '"']
  else if c = '\\' then ['\\', '\\']
  else if c = '\x08' then ['\\', 'b']
  else if c = '\x0c' then ['\\', 'f']
  else if c = '\n' then ['\\', 'n']
  else if c = '\r' then ['\\', 'r']
  else if c = '\t' then ['\\', 't']
  else if c.toNat < 0x20 then
    ['\\', 'u', '0', '0', Nat.digitChar (c.toNat / 16), Nat.digitChar (c.toNat % 16)]
  else [c]

def stringText (s : String) : String :=
  "\"" ++ String.ofList (s.toList.flatMap escape) ++ "\""

/-- A number that is not finite has no text of its own and is written as null. -/
def floatText (value : Binary64) : String :=
  if value.isFinite then String.ofList (numbers.text value) else "null"

mutual

def compact : Json → String
  | null => "null"
  | bool value => if value then "true" else "false"
  | int value => integerText value
  | float value => floatText value
  | string value => stringText value
  | array items => "[" ++ ",".intercalate (compactItems items) ++ "]"
  | object fields => "\x7b" ++ ",".intercalate (compactFields fields) ++ "\x7d"

def compactItems : List Json → List String
  | [] => []
  | item :: rest => item.compact :: compactItems rest

def compactFields : List (String × Json) → List String
  | [] => []
  | (key, value) :: rest => (stringText key ++ ":" ++ value.compact) :: compactFields rest

end

/-- The items between brackets, one per line one level deeper. -/
def bracketed (opening closing : String) (level : Nat) (items : List String) : String :=
  if items.isEmpty then opening ++ closing
  else
    let indent := String.ofList (List.replicate (2 * level) ' ')
    opening ++ "\n" ++ ",\n".intercalate (items.map fun item => indent ++ "  " ++ item) ++
      "\n" ++ indent ++ closing

mutual

def prettyAt (level : Nat) : Json → String
  | array items => bracketed "[" "]" level (prettyItems (level + 1) items)
  | object fields => bracketed "\x7b" "\x7d" level (prettyFields (level + 1) fields)
  | null => "null"
  | bool value => if value then "true" else "false"
  | int value => integerText value
  | float value => floatText value
  | string value => stringText value

def prettyItems (level : Nat) : List Json → List String
  | [] => []
  | item :: rest => item.prettyAt level :: prettyItems level rest

def prettyFields (level : Nat) : List (String × Json) → List String
  | [] => []
  | (key, value) :: rest =>
    (stringText key ++ ": " ++ value.prettyAt level) :: prettyFields level rest

end

def pretty (value : Json) : String :=
  value.prettyAt 0

end Json
end ProgramTree
