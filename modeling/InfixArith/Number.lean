import InfixArith.Operator
/-!
# Number types

Everything that is built from symbols is built alike over every number type, and this is all that is
asked of one: the five operations, a zero for the empty expression, equality in the sense of the
arithmetic, and a reader and a writer of number words. `Number.ReadsBack` says of a number that
what is written for it is a word, and that this word is read as the same number.
-/

namespace InfixArith

class Number (α : Type) extends Add α, Sub α, Mul α, Div α, HomogeneousPow α, BEq α where
  zero : α
  /-- The number a word stands for, if it stands for one. -/
  read? : String → Option α
  /-- The word that stands for a number. -/
  write : α → String

variable {α : Type} [Number α]

/-- What is written for the number is a word, and reading it gives the number back. -/
structure Number.ReadsBack (value : α) : Prop where
  write_ne_empty : Number.write value ≠ ""
  space_notMem_write : ' ' ∉ (Number.write value).toList
  read?_write : Number.read? (Number.write value) = some value

/-- The value of an operator at two operands, in the arithmetic of their type. -/
def Operator.apply (op : Operator) (left right : α) : α :=
  match op with
  | add => left + right
  | subtract => left - right
  | multiply => left * right
  | divide => left / right
  | power => left ^ right

end InfixArith
