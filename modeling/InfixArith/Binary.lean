/-!
# Binary formats

A binary format keeps a fixed number of fraction bits and of exponent bits. Its nonnegative values
are numbered in ascending order by their codes: zero is code `0`, the smallest positive value is
code `1`, and the code after the last finite value is infinity. Every value is a whole multiple of
the smallest positive one, `units` of it, which turns each question about values into one about
natural numbers. A code is also the bit pattern of its value, less the sign.

Rounding an exact ratio to a format needs one division. A value that has to drop `shift` bits lies
in the `shift`-th run of `2 ^ fractionBits` codes, so rounding its quotient by `2 ^ shift` units and
adding the codes of the runs before gives the code, and a quotient that rounds up into the next run
gives the first code of that run.
-/

namespace InfixArith

structure BinaryFormat where
  fractionBits : Nat
  exponentBits : Nat

namespace BinaryFormat

def single : BinaryFormat := ⟨23, 8⟩

def double : BinaryFormat := ⟨52, 11⟩

variable (format : BinaryFormat)

/-- The code of infinity. -/
def infinity : Nat := (Nat.pow 2 format.exponentBits - 1) * Nat.pow 2 format.fractionBits

/-- The smallest positive value is `2 ^ (-unitExponent)`. -/
def unitExponent : Nat := Nat.pow 2 (format.exponentBits - 1) - 2 + format.fractionBits

/-- The value of a code, counted in smallest positive values. -/
def units (code : Nat) : Nat :=
  let run := Nat.pow 2 format.fractionBits
  if code < run then code else (run + code % run) * Nat.pow 2 (code / run - 1)

/-- The whole number nearest to a ratio, the even one of two. -/
def roundHalfEven (numerator denominator : Nat) : Nat :=
  let floor := numerator / denominator
  let twice := 2 * (numerator % denominator)
  if twice < denominator ∨ (twice = denominator ∧ floor % 2 = 0) then floor else floor + 1

/-- The code of the value nearest to a ratio, the even one of two. -/
def nearest (numerator denominator : Nat) : Nat :=
  let scaled := numerator * Nat.pow 2 format.unitExponent
  let shift := (scaled / denominator).log2 - format.fractionBits
  min format.infinity (shift * Nat.pow 2 format.fractionBits +
    roundHalfEven scaled (denominator * Nat.pow 2 shift))

/-- The bit that marks a negative number. -/
def signBit : Nat := Nat.pow 2 (format.fractionBits + format.exponentBits)

end BinaryFormat

end InfixArith
