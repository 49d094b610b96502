import ProgramTree.Decimal.Reading
import ProgramTree.Grammar.Reader
import ProgramTree.Toml.Basic

/-! # The grammar of TOML 1.0

A text is a sequence of lines: an entry, a header, or nothing, each with an
optional comment. Only acceptance matters, so all failures here are alike.
Arrays, inline tables and dotted keys are refused beyond a fixed depth. -/

namespace ProgramTree

set_option autoImplicit false

namespace Toml

open Reader

/-- Characters that may stand in a comment or, quotes and backslashes apart, in a string. -/
def isPlain (c : Char) : Bool :=
  c == '\t' || (0x20 ≤ c.toNat && c.toNat != 0x7f)

def isInlineSpace (c : Char) : Bool :=
  c == ' ' || c == '\t'

def skip (test : Char → Bool) : Reader Unit :=
  fun text => .ok () (text.dropWhile test)

def inlineSpaces : Reader Unit :=
  skip isInlineSpace

/-- Exactly the given characters. -/
def exactly (expected : String) : Reader Unit := fun text =>
  if expected.toList.isPrefixOf text then .ok () (text.drop expected.length) else unexpected text

/-- One character of a class. -/
def oneOf (test : Char → Bool) : Reader Char
  | c :: rest => if test c then .ok c rest else unexpected (c :: rest)
  | [] => unexpected []

/-- A line end: a line feed, with or without a carriage return before it. -/
def lineEnd : Reader Unit :=
  orElse (exactly "\n") (exactly "\r\n")

def comment : Reader Unit := do
  exactly "#"
  skip isPlain

/-- Blanks, comments and line ends. -/
def trivia : Reader Unit := do
  inlineSpaces
  let _ ← many (do
    let _ ← optional comment
    lineEnd
    inlineSpaces)
  return ()

/-- As many of the characters as the given number, all hexadecimal digits. -/
def codePoint (digits : Nat) : Reader Char := fun text =>
  let code := (text.take digits).map Char.toLower
  let isHex (c : Char) := c.isDigit || ('a' ≤ c && c ≤ 'f')
  let value (c : Char) := if c.isDigit then c.toNat - '0'.toNat else c.toNat - 'a'.toNat + 10
  let number := code.foldl (fun n c => 16 * n + value c) 0
  if code.length = digits ∧ code.all isHex ∧ number.isValidChar then
    .ok (Char.ofNat number) (text.drop digits)
  else unexpected text

/-- What follows a backslash. -/
def escaped : Reader Char := do
  match ← oneOf fun c => "btnfr\"\\uU".toList.contains c with
  | 'b' => return '\x08'
  | 't' => return '\t'
  | 'n' => return '\n'
  | 'f' => return '\x0c'
  | 'r' => return '\r'
  | 'u' => codePoint 4
  | 'U' => codePoint 8
  | c => return c

/-- A character of a quoted text, which escapes may stand for. -/
def basicChar : Reader (List Char) :=
  orElse
    (do
      exactly "\\"
      return [← escaped])
    (do return [← oneOf fun c => isPlain c && c != '"' && c != '\\'])

/-- A backslash at the end of a line takes all blanks and line ends after it away. -/
def foldedLine : Reader (List Char) := do
  exactly "\\"
  inlineSpaces
  lineEnd
  let _ ← many (orElse lineEnd (do let _ ← oneOf isInlineSpace; return ()))
  return []

def newline : Reader (List Char) := do
  lineEnd
  return ['\n']

/-- A delimiter that does not end the text: one of at most two in a row, or of those directly
before the end. -/
def innerQuote (quote : Char) : Reader (List Char) := fun text =>
  match text, (text.takeWhile (· == quote)).length with
  | c :: rest, 1 | c :: rest, 2 | c :: rest, 4 | c :: rest, 5 => .ok [c] rest
  | text, _ => unexpected text

def between (delimiter : String) (part : Reader (List Char)) : Reader String := do
  exactly delimiter
  let parts ← many part
  exactly delimiter
  return String.ofList parts.flatten

def multiline (delimiter : String) (part : Reader (List Char)) : Reader String := do
  exactly delimiter
  let _ ← optional lineEnd
  let parts ← many part
  exactly delimiter
  return String.ofList parts.flatten

def basicString : Reader String :=
  between "\"" basicChar

def literalString : Reader String :=
  between "'" (do return [← oneOf fun c => isPlain c && c != '\''])

def multilineBasic : Reader String :=
  multiline "\"\"\"" (orElse foldedLine (orElse basicChar (orElse newline (innerQuote '"'))))

def multilineLiteral : Reader String :=
  multiline "'''" (orElse (do return [← oneOf fun c => isPlain c && c != '\''])
    (orElse newline (innerQuote '\'')))

def anyString : Reader String :=
  orElse multilineBasic (orElse multilineLiteral (orElse basicString literalString))

def isBareKeyChar (c : Char) : Bool :=
  c.isAlphanum || c == '-' || c == '_'

def simpleKey : Reader String :=
  orElse (orElse basicString literalString) fun text =>
    match text.takeWhile isBareKeyChar with
    | [] => unexpected text
    | key => .ok (String.ofList key) (text.dropWhile isBareKeyChar)

/-- How many values may lie within one another, and how many keys a dotted key may have. -/
def depthLimit : Nat :=
  79

/-- Keys with points between them, and blanks around each. -/
def dottedKey : Reader (List String) := do
  let keys ← separatedSome (exactly ".") (do
    inlineSpaces
    let key ← simpleKey
    inlineSpaces
    return key)
  if keys.length ≤ depthLimit then return keys
  else unexpected

/-- Digits of a base, each two with at most one underscore between them. -/
def digitsOf? (isBaseDigit : Char → Bool) (text : List Char) : Option (List Char) :=
  let groups := text.splitOn '_'
  if groups.all fun group => !group.isEmpty && group.all isBaseDigit then some groups.flatten
  else none

/-- Decimal digits without a zero in front. -/
def decimal? (text : List Char) : Option (List Char) :=
  match digitsOf? Char.isDigit text with
  | some ['0'] => some ['0']
  | some ('0' :: _) => none
  | digits => digits

def digitValue (c : Char) : Nat :=
  if c.isDigit then c.toNat - '0'.toNat else c.toLower.toNat - 'a'.toNat + 10

def based? (base : Nat) (text : List Char) : Option Int :=
  let isBaseDigit (c : Char) := c.isAlphanum && digitValue c < base
  (digitsOf? isBaseDigit text).map fun digits =>
    Int.ofNat (digits.foldl (fun n c => base * n + digitValue c) 0)

/-- An integer that fits in 64 bits. -/
def integer? (token : List Char) : Option Int :=
  let value? := match token with
    | '0' :: 'x' :: digits => based? 16 digits
    | '0' :: 'o' :: digits => based? 8 digits
    | '0' :: 'b' :: digits => based? 2 digits
    | token =>
      let (negative, digits) := Binary64.takeSign token
      (decimal? digits).map (signedValue negative)
  value?.filter fun value => (int64? value).isSome

/-- Whether a token is a float: a number with a fraction or an exponent part, or a special
value. One that is too large is none, unless it is negative. -/
def isFloat (token : List Char) : Bool :=
  let (_, body) := Binary64.takeSign token
  let isExponentMark c := c == 'e' || c == 'E'
  let mantissa := body.takeWhile (!isExponentMark ·)
  let whole := mantissa.takeWhile (· != '.')
  let fractionOk := match mantissa.dropWhile (· != '.') with
    | [] => true
    | _ :: fraction => (digitsOf? Char.isDigit fraction).isSome
  let exponentOk := match body.dropWhile (!isExponentMark ·) with
    | [] => true
    | _ :: exponent => (digitsOf? Char.isDigit (Binary64.takeSign exponent).2).isSome
  body = "inf".toList || body = "nan".toList ||
    ((decimal? whole).isSome && fractionOk && exponentOk && whole.length < body.length &&
      Binary64.ofText? (token.filter (· != '_')) != some (.infinity false))

/-- A number of exactly two digits in a range. -/
def isTwoDigits (low high : Nat) (text : List Char) : Bool :=
  let value := Nat.ofDigitChars 10 text 0
  text.length == 2 && text.all Char.isDigit && low ≤ value && value ≤ high

def daysIn (year month : Nat) : Nat :=
  if month = 2 then
    if year % 4 = 0 ∧ (year % 100 ≠ 0 ∨ year % 400 = 0) then 29 else 28
  else if month = 4 ∨ month = 6 ∨ month = 9 ∨ month = 11 then 30
  else 31

def isDate (text : List Char) : Bool :=
  match text.splitOn '-' with
  | [year, month, day] =>
    let number (digits : List Char) := Nat.ofDigitChars 10 digits 0
    year.length == 4 && year.all Char.isDigit && isTwoDigits 1 12 month &&
      isTwoDigits 1 (daysIn (number year) (number month)) day
  | _ => false

def isTime (text : List Char) : Bool :=
  match text.splitOn ':' with
  | [hour, minute, second] =>
    let fractionOk := match second.dropWhile (· != '.') with
      | [] => true
      | _ :: fraction => !fraction.isEmpty && fraction.all Char.isDigit
    isTwoDigits 0 23 hour && isTwoDigits 0 59 minute &&
      isTwoDigits 0 60 (second.takeWhile (· != '.')) && fractionOk
  | _ => false

/-- A time with an offset from universal time, or without one. -/
def isOffsetTime (text : List Char) : Bool :=
  match text.reverse with
  | 'Z' :: time | 'z' :: time => isTime time.reverse
  | m :: n :: ':' :: h :: i :: sign :: time =>
    if sign = '+' ∨ sign = '-' then
      isTwoDigits 0 23 [i, h] && isTwoDigits 0 59 [n, m] && isTime time.reverse
    else isTime text
  | _ => isTime text

def isDateTime (token : List Char) : Bool :=
  match token.drop 10 with
  | [] => isDate token
  | mark :: time =>
    (mark == 'T' || mark == 't' || mark == ' ') && isDate (token.take 10) && isOffsetTime time

def isTokenChar (c : Char) : Bool :=
  c.isAlphanum || "+-._:".toList.contains c

/-- A value that is neither a string nor an array nor a table. A blank may stand between a date
and a time. -/
def plainValue : Reader Toml := fun text =>
  let token := text.takeWhile isTokenChar
  let rest := text.dropWhile isTokenChar
  let dated := match rest with
    | ' ' :: tail => token ++ ' ' :: tail.takeWhile isTokenChar
    | _ => token
  if dated ≠ token ∧ isDate token ∧ isDateTime dated then .ok .scalar (text.drop dated.length)
  else if token = "true".toList ∨ token = "false".toList ∨ isDateTime token ∨ isTime token then
    .ok .scalar rest
  else
    match integer? token with
    | some value => .ok (.integer value) rest
    | none => if isFloat token then .ok .scalar rest else unexpected text

def entry (inner : Reader Toml) : Reader (List String × Toml) := do
  let path ← dottedKey
  exactly "="
  inlineSpaces
  return (path, ← inner)

/-- Values between brackets, on any number of lines, with an optional comma at the end. -/
def arrayValue (inner : Reader Toml) : Reader Toml := do
  exactly "["
  trivia
  let items ← separated (do trivia; exactly ","; trivia) inner
  if !items.isEmpty then
    let _ ← optional (do trivia; exactly ",")
  trivia
  exactly "]"
  return .array items

/-- Entries between braces, on one line. -/
def inlineValue (inner : Reader Toml) : Reader Toml := do
  exactly "\x7b"
  let pairs ← separated (exactly ",") (do
    let pair ← entry inner
    inlineSpaces
    return pair)
  inlineSpaces
  exactly "\x7d"
  match inlineTable? pairs with
  | some found => return found
  | none => unexpected

/-- A value in which at most the given number of arrays and inline tables lie within one
another. -/
def value : Nat → List Char → Outcome Toml
  | 0, text => orElse (do return .string (← anyString)) plainValue text
  | levels + 1, text =>
    orElse (do return .string (← anyString))
      (orElse (arrayValue (value levels)) (orElse (inlineValue (value levels)) plainValue)) text

def header : Reader Line := do
  exactly "["
  let path ← dottedKey
  exactly "]"
  return .header path

def elementHeader : Reader Line := do
  exactly "[["
  let path ← dottedKey
  exactly "]]"
  return .element path

/-- One line, without its end. -/
def line : Reader Line := do
  inlineSpaces
  let content ← optional
    (orElse (orElse elementHeader header) (do
      let (path, value) ← entry (value depthLimit)
      return .entry path value))
  inlineSpaces
  let _ ← optional comment
  return content.getD .blank

def lines : Reader (List Line) := do
  let first ← line
  let others ← many (do lineEnd; line)
  return first :: others

/-- The table that a text spells; a byte order mark in front does not count. -/
def ofText? (text : String) : Option Entries :=
  let body := match text.toList with
    | '\ufeff' :: rest => rest
    | rest => rest
  match lines body with
  | .ok found [] => addLines found [] []
  | _ => none

end Toml
end ProgramTree
