import InfixArith.Decimal.Shortest
/-!
# Numerals

What a number word says before it is fitted into a number type: a decimal with a sign, an infinity
with a sign, or no number at all. Zero keeps its sign. Fitting a numeral into a binary format gives
the bits of the nearest value, and the bits of a value give the numeral that is written for it.
-/

namespace InfixArith

inductive Numeral where
  | nan
  | infinity (negative : Bool)
  | finite (negative : Bool) (magnitude : Decimal)
deriving DecidableEq, Repr

namespace BinaryFormat

variable (format : BinaryFormat)

def withSign (negative : Bool) (code : Nat) : Nat :=
  if negative then format.signBit + code else code

def encode : Numeral → Nat
  | .nan => format.infinity + Nat.pow 2 (format.fractionBits - 1)
  | .infinity negative => format.withSign negative format.infinity
  | .finite negative magnitude => format.withSign negative (format.ofDecimal magnitude)

def decode (bits : Nat) : Numeral :=
  let negative : Bool := format.signBit ≤ bits
  let code := bits % format.signBit
  if format.infinity < code then .nan
  else if code = format.infinity then .infinity negative
  else .finite negative (format.shortest code)

end BinaryFormat

end InfixArith
