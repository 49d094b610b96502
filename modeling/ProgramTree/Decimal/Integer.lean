/-! # Integers in decimal

The text of an integer, and the integers of 64 bits among those that digits
can spell. -/

namespace ProgramTree

set_option autoImplicit false

-- Powers are those of the core library, whatever else is in scope.
attribute [local instance (high)] instPowNat

/-- Decimal digits, after a minus for a negative number. -/
def integerText (value : Int) : String :=
  if value < 0 then "-" ++ toString value.natAbs else toString value.natAbs

/-- The 64-bit integer equal to a number, if there is one. -/
def int64? (value : Int) : Option Int64 :=
  if -(2 ^ (63 : Nat)) ≤ value ∧ value < 2 ^ (63 : Nat) then some (Int64.ofInt value) else none

/-- The integer spelled by a sign and digits. -/
def signedValue (negative : Bool) (digits : List Char) : Int :=
  let size : Int := Nat.ofDigitChars 10 digits 0
  if negative then -size else size

end ProgramTree
