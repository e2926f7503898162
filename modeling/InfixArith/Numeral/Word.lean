import InfixArith.Numeral.Basic
/-!
# Number words

A number word is an optional sign and then `inf`, `infinity` or `nan` in any letter case, or digits
with at most one point among, before or behind them, and optionally the letter `e` with an exponent,
which has a sign of its own. There is at least one digit, and at least one in the exponent if there
is one. Nothing else is a number word.

Far more words are read than written: a numeral is written without an exponent, a plus sign or a
bare point.
-/

namespace InfixArith.Numeral

/-- The exponent that digits say. They count up to the first value of `65536` or more; all exponents
from there on are out of every format's reach for words of moderate length. -/
def exponentOfDigits (digits : List Char) : Nat :=
  digits.foldl
    (fun total c => if total < 65536 then 10 * total + (c.toNat - '0'.toNat) else total) 0

/-- The digits of an exponent, of which there is at least one and nothing else. -/
def exponentMagnitude? (chars : List Char) : Option Nat :=
  if chars ≠ [] ∧ chars.all Char.isDigit then some (exponentOfDigits chars) else none

/-- The exponent that ends a number word; none at all stands for zero. -/
def exponent? : List Char → Option Int
  | [] => some 0
  | letter :: chars =>
      if letter = 'e' ∨ letter = 'E' then
        match chars with
        | '-' :: digits => (exponentMagnitude? digits).map fun n => -(n : Int)
        | '+' :: digits => (exponentMagnitude? digits).map fun n => (n : Int)
        | digits => (exponentMagnitude? digits).map fun n => (n : Int)
      else none

/-- The digits behind a point, and what comes after them. -/
def splitFraction : List Char → List Char × List Char
  | '.' :: chars => (chars.takeWhile Char.isDigit, chars.dropWhile Char.isDigit)
  | chars => ([], chars)

def decimal? (chars : List Char) : Option Decimal :=
  let whole := chars.takeWhile Char.isDigit
  let (fraction, rest) := splitFraction (chars.dropWhile Char.isDigit)
  if whole ++ fraction = [] then none
  else (exponent? rest).map fun exponent =>
    ⟨Nat.ofDigitChars 10 (whole ++ fraction) 0, exponent - fraction.length⟩

def unsigned? (negative : Bool) (chars : List Char) : Option Numeral :=
  let lower := chars.map Char.toLower
  if lower = ['n', 'a', 'n'] then some nan
  else if lower = ['i', 'n', 'f'] ∨ lower = ['i', 'n', 'f', 'i', 'n', 'i', 't', 'y'] then
    some (infinity negative)
  else (decimal? chars).map (finite negative)

def ofChars? : List Char → Option Numeral
  | '-' :: chars => unsigned? true chars
  | '+' :: chars => unsigned? false chars
  | chars => unsigned? false chars

def ofWord? (word : String) : Option Numeral := ofChars? word.toList

def layoutSigned (negative : Bool) (chars : List Char) : List Char :=
  if negative then '-' :: chars else chars

def layout : Numeral → List Char
  | nan => ['N', 'a', 'N']
  | infinity negative => layoutSigned negative ['i', 'n', 'f']
  | finite negative magnitude => layoutSigned negative magnitude.layout

def write (numeral : Numeral) : String := String.ofList numeral.layout

end InfixArith.Numeral
