import ProgramTree.Decimal.Binary64
import ProgramTree.Decimal.Integer

/-! # Reading decimal text

A decimal numeral is split into its integer digits, its fraction digits and
its exponent before a value is chosen, so that the choice is one exact
rounding. The text of a number may also be `inf`, `infinity` or `nan` in any
letter case. -/

namespace ProgramTree

set_option autoImplicit false

/-- The parts of a decimal numeral. The exponent is that of the written
exponent part, not yet lowered by the number of fraction digits. -/
structure Numeral where
  negative : Bool
  whole : List Char
  fraction : List Char
  exponent : Int
  deriving DecidableEq

namespace Numeral

def value (n : Numeral) : Binary64 :=
  Binary64.ofDecimal n.negative (Nat.ofDigitChars 10 (n.whole ++ n.fraction) 0)
    (n.exponent - n.fraction.length)

end Numeral

namespace Binary64

/-- An optional sign and what follows it. -/
def takeSign : List Char → Bool × List Char
  | '-' :: rest => (true, rest)
  | '+' :: rest => (false, rest)
  | rest => (false, rest)

/-- An exponent part that ends the text, or no exponent part at all. -/
def readExponent? : List Char → Option Int
  | [] => some 0
  | c :: rest =>
    if c = 'e' ∨ c = 'E' then
      let (negative, digits) := takeSign rest
      if digits ≠ [] ∧ digits.all Char.isDigit then
        some (signedValue negative digits)
      else none
    else none

/-- A numeral with at least one digit before or after an optional point. -/
def readNumeral? (negative : Bool) (text : List Char) : Option Numeral :=
  let whole := text.takeWhile Char.isDigit
  let (fraction, rest) := match text.dropWhile Char.isDigit with
    | '.' :: tail => (tail.takeWhile Char.isDigit, tail.dropWhile Char.isDigit)
    | tail => ([], tail)
  if whole = [] ∧ fraction = [] then none
  else (readExponent? rest).map fun exponent => ⟨negative, whole, fraction, exponent⟩

/-- The value that a text denotes, if it denotes one. -/
def ofText? (text : List Char) : Option Binary64 :=
  let (negative, body) := takeSign text
  let lower := body.map Char.toLower
  if lower = "nan".toList then some .nan
  else if lower = "inf".toList ∨ lower = "infinity".toList then some (.infinity negative)
  else (readNumeral? negative body).map Numeral.value

end Binary64
end ProgramTree
