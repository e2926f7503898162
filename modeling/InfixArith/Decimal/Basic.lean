import InfixArith.Binary
/-!
# Decimal numbers

A decimal number is a coefficient times a power of ten, kept exactly. It is written positionally,
never with an exponent: a nonnegative power of ten adds zeros, a negative one sets the point.
-/

namespace InfixArith

structure Decimal where
  coefficient : Nat
  exponent : Int
deriving DecidableEq, Repr

namespace Decimal

def numerator (d : Decimal) : Nat := d.coefficient * Nat.pow 10 d.exponent.toNat

def denominator (d : Decimal) : Nat := Nat.pow 10 (-d.exponent).toNat

/-- Positional digits. The fraction has as many places as the exponent says. -/
def layout (d : Decimal) : List Char :=
  if 0 ≤ d.exponent then Nat.toDigits 10 d.numerator
  else Nat.toDigits 10 (d.coefficient / d.denominator) ++
    '.' :: (Nat.toDigits 10 (d.coefficient % d.denominator)).leftpad (-d.exponent).toNat '0'

end Decimal

namespace BinaryFormat

/-- The code of the value nearest to a decimal. Outside the two bounds the power of ten alone puts a
positive decimal above every finite value, or below half of the smallest positive one, and is not
computed. -/
def ofDecimal (format : BinaryFormat) (d : Decimal) : Nat :=
  if d.coefficient = 0 then 0
  else if (Nat.pow 2 format.exponentBits : Int) < d.exponent then format.infinity
  else if d.exponent < -((Nat.pow 2 format.exponentBits + d.coefficient.log2 : Nat) : Int) then 0
  else format.nearest d.numerator d.denominator

end BinaryFormat

end InfixArith
