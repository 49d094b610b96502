import ProgramTree.Grammar.Token
import ProgramTree.Expression.Basic
import ProgramTree.Decimal.Reading

/-! # The grammar of expressions

Operators are read in six levels, the loosest first; each level reads operands
of the next one with its operators between them and groups them to the left.
Below the operators come prefixes, then suffixes, then what is written in one
piece. After an operator, a prefix or an opening bracket the reader is
committed.

A minus directly before a digit belongs to the number wherever an operand is
read. The readers of the layers take the reader of nested expressions as an
argument; it is only ever applied to a shorter text. -/

namespace ProgramTree

set_option autoImplicit false

namespace Reader

/-- The characters of a string literal after its opening quote, up to and
including the closing one. -/
def stringBody : List Char → Outcome (List Char)
  | [] => .hard ⟨.invalidString, []⟩
  | '"' :: rest => .ok [] rest
  | '\n' :: rest => .hard ⟨.invalidString, rest⟩
  | ['\\'] => .hard ⟨.invalidString, []⟩
  | '\\' :: escaped :: rest =>
    let meant? :=
      if escaped = 'n' then some '\n'
      else if escaped = 't' then some '\t'
      else if escaped = '"' ∨ escaped = '\\' then some escaped
      else none
    match meant?, stringBody rest with
    | none, _ => .hard ⟨.invalidString, rest⟩
    | some c, .ok cs final => .ok (c :: cs) final
    | _, outcome => outcome
  | c :: rest =>
    match stringBody rest with
    | .ok cs final => .ok (c :: cs) final
    | outcome => outcome

/-- An exponent part: its value, and what follows it. -/
def exponentPart? : List Char → Option (Int × List Char)
  | [] => none
  | c :: rest =>
    if c = 'e' ∨ c = 'E' then
      let (negative, tail) := Binary64.takeSign rest
      match tail.takeWhile Char.isDigit with
      | [] => none
      | digits => some (signedValue negative digits, tail.dropWhile Char.isDigit)
    else none

/-- What makes a number a float: a fraction, an exponent part, or both. The result
holds the fraction digits, the exponent, and what follows. -/
def floatTail? : List Char → Option (List Char × Int × List Char)
  | '.' :: rest =>
    match rest.takeWhile Char.isDigit with
    | [] => none
    | fraction =>
      let tail := rest.dropWhile Char.isDigit
      match exponentPart? tail with
      | some (exponent, final) => some (fraction, exponent, final)
      | none => some (fraction, 0, tail)
  | text => (exponentPart? text).map fun (exponent, final) => ([], exponent, final)

/-- A number literal: digits, directly after a minus if it is negative. An integer that does
not fit in 64 bits is no number. -/
def number? (text : List Char) : Option (Literal × List Char) :=
  let (negative, body) := match text with
    | '-' :: rest => (true, rest)
    | rest => (false, rest)
  let rest := body.dropWhile Char.isDigit
  match body.takeWhile Char.isDigit with
  | [] => none
  | whole =>
    match floatTail? rest with
    | some (fraction, exponent, final) =>
      some (.float (Numeral.value ⟨negative, whole, fraction, exponent⟩), final)
    | none => (int64? (signedValue negative whole)).map fun value => (.int value, rest)

/-- The literals that are written as words. -/
def wordLiteral? (w : List Char) : Option Literal :=
  if w = "true".toList then some (.boolean true)
  else if w = "false".toList then some (.boolean false)
  else if w = "null".toList then some .null
  else none

def comma : Reader Unit :=
  symbol ','

/-- A call of a possibly qualified target. -/
def call (inner : Reader Expression) : Reader Expression := do
  let target ← qualified
  symbol '('
  let args ← separated comma inner
  committed (expect ')')
  return .call (String.ofList target) args

/-- A call where there is one, otherwise a name. -/
def callOrName (inner : Reader Expression) : Reader Expression :=
  orElse (call inner) (do return .name (String.ofList (← identifier)))

def parenthesized (inner : Reader Expression) : Reader Expression := do
  let e ← committed inner
  committed (expect ')')
  return e

/-- What is written in one piece, told by its first character. -/
def primary (inner : Reader Expression) : Reader Expression
  | '(' :: rest => parenthesized inner rest
  | '"' :: rest => (do return .literal (.string (String.ofList (← stringBody))) :
      Reader Expression) rest
  | text =>
    match number? text, wordLiteral? (word text) with
    | some (value, rest), _ => .ok (.literal value) rest
    | none, some value => .ok (.literal value) (afterWord text)
    | none, none => callOrName inner text

/-- A suffix turns the expression before it into a larger one. -/
inductive Suffix
  | field (name : String)
  | index (position : Expression)

def Suffix.apply (target : Expression) : Suffix → Expression
  | field name => .field target name
  | index position => .index target position

def fieldSuffix : Reader Suffix := do
  symbol '.'
  let name ← committed identifier
  return .field (String.ofList name)

def indexSuffix (inner : Reader Expression) : Reader Suffix := do
  symbol '['
  let position ← committed inner
  committed (expect ']')
  return .index position

def suffixed (inner : Reader Expression) : Reader Expression := do
  let target ← primary inner
  let suffixes ← many (orElse fieldSuffix (indexSuffix inner))
  return suffixes.foldl Suffix.apply target

/-- An operand of the binary operators. A prefix is committed to its operand; a minus
is a prefix only where no suffixed expression can be read. -/
def operand (inner : Reader Expression) (text : List Char) : Outcome Expression :=
  match h : skipSpaces text with
  | '!' :: rest =>
    have : rest.length < text.length := length_of_skipSpaces h
    (operand inner rest).committed.map (.unary .not)
  | '-' :: rest =>
    have : rest.length < text.length := length_of_skipSpaces h
    match suffixed inner ('-' :: rest) with
    | .soft _ => (operand inner rest).committed.map (.unary .neg)
    | outcome => outcome
  | start =>
    match suffixed inner start with
    | .soft _ => unexpected start
    | outcome => outcome
termination_by text.length

/-- The first of the given operators that the text goes on with. -/
def operator (ops : List BinaryOp) : Reader BinaryOp := fun text =>
  let start := skipSpaces text
  match ops.find? fun op => op.symbol.toList.isPrefixOf start with
  | some op => .ok op (start.drop op.symbol.length)
  | none => unexpected start

/-- The operators of each level, loosest level first. An operator whose symbol begins with
another one comes before it. -/
def levels : List (List BinaryOp) :=
  [[.or], [.and], [.eq, .ne], [.le, .ge, .lt, .gt], [.add, .sub], [.mul, .div, .mod]]

/-- Operands of the next level with operators of this one between them. -/
def level (ops : List BinaryOp) (next : Reader Expression) : Reader Expression := do
  let first ← next
  let others ← many (do
    let op ← operator ops
    let rhs ← committed next
    return (op, rhs))
  return others.foldl (fun lhs (op, rhs) => .binary op lhs rhs) first

/-- All layers of the grammar over a reader of nested expressions. -/
def layers (inner : Reader Expression) : Reader Expression :=
  levels.foldr level (operand inner)

def expression (text : List Char) : Outcome Expression :=
  layers (below text fun rest _ => expression rest) text
termination_by text.length

end Reader
end ProgramTree
