import ProgramTree.Decimal.Binary64

/-! # Shortest decimal text

A finite value is written with the fewest significant digits that read back
as the same value, and among those with the digits nearest to it. The two
neighbours of the value on each decimal grid are tested, coarsest grid first;
when none of the grids of up to 17 digits reads back the exact expansion is
taken, so reading back holds by construction. -/

namespace ProgramTree

set_option autoImplicit false

-- Powers are those of the core library, whatever else is in scope.
attribute [local instance (high)] instPowNat

/-- The decimal `digits * 10 ^ exponent`. -/
structure Decimal where
  digits : Nat
  exponent : Int
  deriving DecidableEq

/-- What two equally near neighbours are resolved to. -/
inductive Tie
  | upward
  | toEven
  deriving DecidableEq

namespace Decimal

def readsBack (d : Decimal) (x : Binary64) : Bool :=
  Binary64.ofDecimal false d.digits d.exponent == x

/-- The exponent of the first digit of the magnitude `units / 2 ^ 1074`. -/
def leadingExponent (units : Nat) : Int :=
  ((Nat.toDigits 10 (units * 10 ^ (400 : Nat) / 2 ^ (1074 : Nat))).length : Int) - 401

/-- The neighbours of `units / 2 ^ 1074` on the grid of step `10 ^ exponent`, the
nearer one first. -/
def neighbours (tie : Tie) (units : Nat) (exponent : Int) : List Decimal :=
  let num := units * 10 ^ (-exponent).toNat
  let den := 2 ^ (1074 : Nat) * 10 ^ exponent.toNat
  let low := num / den
  let lowFirst :=
    if 2 * (num % den) = den then tie = .toEven ∧ low % 2 = 0 else 2 * (num % den) < den
  if lowFirst then [⟨low, exponent⟩, ⟨low + 1, exponent⟩]
  else [⟨low + 1, exponent⟩, ⟨low, exponent⟩]

/-- The same decimal without zeros at its end. -/
def trimZeros (d : Decimal) : Decimal :=
  if h : d.digits ≠ 0 ∧ d.digits % 10 = 0 then trimZeros ⟨d.digits / 10, d.exponent + 1⟩ else d
termination_by d.digits
decreasing_by omega

/-- The neighbours on the grids of up to 17 digits, coarsest grid first. -/
def candidates (tie : Tie) (units : Nat) : List Decimal :=
  let lead := leadingExponent units
  ((List.range 17).map fun (k : Nat) => lead - k).flatMap (neighbours tie units)

/-- All digits of `units / 2 ^ 1074`. -/
def expansion (units : Nat) : Decimal :=
  ⟨units * 5 ^ (1074 : Nat), -1074⟩

/-- The fewest digits that read back as the given positive magnitude. -/
def shortest (tie : Tie) (significand scale : Nat) (h : Canonical significand scale) : Decimal :=
  let units := Binary64.units significand scale
  ((candidates tie units).find? (readsBack · (.finite false significand scale h))).getD
    (expansion units)

end Decimal

/-- How a format lays out the digits of a number: the decimal exponents from
`positionalFrom` and below `positionalBelow` are written without an exponent part, and
a positive exponent carries a plus sign or not. -/
structure NumberLayout where
  tie : Tie
  positionalFrom : Int
  positionalBelow : Int
  plusSign : Bool

namespace NumberLayout

/-- Digits with a point, and with at least one digit on each side of it. -/
def positional (digits : List Char) (lead : Int) : List Char :=
  if lead < 0 then
    '0' :: '.' :: List.replicate (-lead - 1).toNat '0' ++ digits
  else
    let whole := lead.toNat + 1
    let fraction := digits.drop whole
    digits.take whole ++ List.replicate (whole - digits.length) '0' ++
      '.' :: (if fraction.isEmpty then ['0'] else fraction)

/-- Digits with the point after the first one, and an exponent part. -/
def scientific (layout : NumberLayout) (digits : List Char) (lead : Int) : List Char :=
  let mantissa := match digits with
    | first :: second :: rest => first :: '.' :: second :: rest
    | short => short
  let sign := if lead < 0 then ['-'] else if layout.plusSign then ['+'] else []
  mantissa ++ 'e' :: sign ++ Nat.toDigits 10 lead.natAbs

def magnitude (layout : NumberLayout) (d : Decimal) : List Char :=
  let trimmed := d.trimZeros
  let digits := Nat.toDigits 10 trimmed.digits
  let lead : Int := digits.length - 1 + trimmed.exponent
  if layout.positionalFrom ≤ lead ∧ lead < layout.positionalBelow then positional digits lead
  else scientific layout digits lead

/-- The text of a number; zero is positional. -/
def text (layout : NumberLayout) : Binary64 → List Char
  | .nan => "NaN".toList
  | .infinity negative => (if negative then ['-'] else []) ++ "inf".toList
  | .finite negative significand scale h =>
    (if negative then ['-'] else []) ++
      if significand = 0 then "0.0".toList
      else layout.magnitude (Decimal.shortest layout.tie significand scale h)

end NumberLayout
end ProgramTree
