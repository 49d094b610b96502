/-! # Binary floating-point numbers of 64 bits

A finite value is a significand times a power of two, counted in units of the
least positive value `2 ^ -1074`. The pair is canonical, so two values with
the same sign and the same magnitude are the same term. Rounding from an exact
ratio is to the nearest value, a half going to the even significand. -/

namespace ProgramTree

set_option autoImplicit false

-- Powers are those of the core library, whatever else is in scope.
attribute [local instance (high)] instPowNat

/-- A significand has at most 53 bits, and fewer only at the least scale. -/
structure Canonical (significand scale : Nat) : Prop where
  significand_lt : significand < 2 ^ (53 : Nat)
  normal_or_least : 2 ^ (52 : Nat) ≤ significand ∨ scale = 0
  scale_le : scale ≤ 2045

instance (significand scale : Nat) : Decidable (Canonical significand scale) :=
  if h : significand < 2 ^ (53 : Nat) ∧ (2 ^ (52 : Nat) ≤ significand ∨ scale = 0) ∧
      scale ≤ 2045 then
    .isTrue ⟨h.1, h.2.1, h.2.2⟩
  else
    .isFalse fun c => h ⟨c.significand_lt, c.normal_or_least, c.scale_le⟩

/-- A finite value stands for `± significand * 2 ^ scale / 2 ^ 1074`. -/
inductive Binary64
  | nan
  | infinity (negative : Bool)
  | finite (negative : Bool) (significand scale : Nat) (canonical : Canonical significand scale)
  deriving DecidableEq

namespace Binary64

def zero (negative : Bool) : Binary64 :=
  .finite negative 0 0 ⟨by decide, .inr rfl, by decide⟩

def isFinite : Binary64 → Bool
  | finite .. => true
  | _ => false

/-- Equality of numbers: the two zeros agree and a NaN agrees with nothing. -/
def agrees : Binary64 → Binary64 → Bool
  | infinity n, infinity n' => n == n'
  | finite n m s _, finite n' m' s' _ => m == m' && s == s' && (n == n' || m == 0)
  | _, _ => false

/-- The exact magnitude in units of `2 ^ -1074`. -/
def units (significand scale : Nat) : Nat :=
  significand * 2 ^ scale

/-- The natural number nearest to `num / den`, a half going to the even one. -/
def roundHalfEven (num den : Nat) : Nat :=
  let quotient := num / den
  let remainder := num % den
  if 2 * remainder < den then quotient
  else if den < 2 * remainder then quotient + 1
  else quotient + quotient % 2

/-- The value nearest to `± num / den`; what is too large becomes infinite. -/
def ofRatio (negative : Bool) (num den : Nat) : Binary64 :=
  let numUnits := num * 2 ^ (1074 : Nat)
  let scale := (numUnits / den).log2 - 52
  let significand := roundHalfEven numUnits (den * 2 ^ scale)
  let carried :=
    if significand = 2 ^ (53 : Nat) then (2 ^ (52 : Nat), scale + 1) else (significand, scale)
  if h : Canonical carried.1 carried.2 then .finite negative carried.1 carried.2 h
  else .infinity negative

/-- The value nearest to `± digits * 10 ^ exponent`. Magnitudes from
`10 ^ 310` are infinite and those below `10 ^ -400` are zero, whatever
their digits, so the powers of ten that are computed stay small. -/
def ofDecimal (negative : Bool) (digits : Nat) (exponent : Int) : Binary64 :=
  if digits = 0 then zero negative
  else
    let magnitude := ((Nat.toDigits 10 digits).length : Int) + exponent
    if 310 < magnitude then .infinity negative
    else if magnitude < -400 then zero negative
    else ofRatio negative (digits * 10 ^ exponent.toNat) (10 ^ (-exponent).toNat)

end Binary64
end ProgramTree
