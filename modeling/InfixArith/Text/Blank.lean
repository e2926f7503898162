/-!
# White space

The characters of the Unicode property `White_Space`, and texts without the white space at their
ends. Only the space separates words; the other characters of the property matter where a text is
quoted.
-/

namespace InfixArith.Text

/-- The ranges of the property, first and last code point. -/
def blankRanges : List (Nat × Nat) :=
  [(0x0009, 0x000D), (0x0020, 0x0020), (0x0085, 0x0085), (0x00A0, 0x00A0), (0x1680, 0x1680),
   (0x2000, 0x200A), (0x2028, 0x2029), (0x202F, 0x202F), (0x205F, 0x205F), (0x3000, 0x3000)]

def isBlank (c : Char) : Bool :=
  blankRanges.any fun (first, last) => first ≤ c.toNat && c.toNat ≤ last

/-- What is left when the last characters with a property are removed. -/
def dropTrailing (p : Char → Bool) (chars : List Char) : List Char :=
  (chars.reverse.dropWhile p).reverse

def trimEnd (chars : List Char) : List Char := dropTrailing isBlank chars

def trim (chars : List Char) : List Char := trimEnd (chars.dropWhile isBlank)

theorem not_of_dropTrailing_getLast? {p : Char → Bool} {chars : List Char} {c : Char}
    (h : (dropTrailing p chars).getLast? = some c) : p c = false := by
  rw [dropTrailing, List.getLast?_reverse] at h
  have := List.head?_dropWhile_not p chars.reverse
  rw [h] at this
  simpa using this

end InfixArith.Text
