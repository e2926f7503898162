import InfixArith.Decimal.Basic
/-!
# The shortest decimal of a binary value

Among the decimals that a format reads back as a given value, the one that is written is the one on
the coarsest decimal grid, the one nearest to the value if a grid has two, and the greater of two
that are equally near. If any point of a grid is read back then so is one of the value's two
neighbours on it, so each grid is settled by two readings. The search starts above the value and
ends within the precision of the format; what stands behind it is the exact value, which is always
read back.
-/

namespace InfixArith.BinaryFormat

variable (format : BinaryFormat)

/-- The better one of a value's two neighbours among the multiples of `10 ^ exponent`, of those that
are read back. -/
def onGrid? (code : Nat) (exponent : Int) : Option Decimal :=
  let numerator := format.units code * Nat.pow 10 (-exponent).toNat
  let denominator := Nat.pow 2 format.unitExponent * Nat.pow 10 exponent.toNat
  let below : Decimal := ⟨numerator / denominator, exponent⟩
  let above : Decimal := ⟨numerator / denominator + 1, exponent⟩
  let belowReadsBack := format.ofDecimal below == code
  if belowReadsBack && 2 * (numerator % denominator) < denominator then some below
  else if format.ofDecimal above == code then some above
  else if belowReadsBack then some below
  else none

/-- The exponent of a power of ten above twice the value of a code. The factor is the decimal
logarithm of two, rounded up in its fifth place. -/
def decimalCeiling (code : Nat) : Int :=
  (((format.units code).log2 : Int) - format.unitExponent + 2) * 30103 / 100000 + 1

/-- The value of a code, digit for digit. -/
def exactDecimal (code : Nat) : Decimal :=
  ⟨format.units code * Nat.pow 5 format.unitExponent, -format.unitExponent⟩

def shortest (code : Nat) : Decimal :=
  if code = 0 then ⟨0, 0⟩
  else
    let ceiling := format.decimalCeiling code
    ((List.range (format.fractionBits + 4)).findSome? fun (place : Nat) =>
      format.onGrid? code (ceiling - place)).getD (format.exactDecimal code)

end InfixArith.BinaryFormat
