import InfixArith.Number
/-!
# Symbols

A symbol is what one word of an expression stands for: a number or an operator. Two symbols are
equal when they are the same operator, or numbers that their arithmetic calls equal, so a symbol
need not be equal to itself.
-/

namespace InfixArith

inductive Symbol (α : Type) where
  | number (value : α)
  | operator (op : Operator)
deriving DecidableEq, Repr

namespace Symbol

variable {α : Type}

def isOperator : Symbol α → Bool
  | number _ => false
  | operator _ => true

def number? : Symbol α → Option α
  | number value => some value
  | operator _ => none

def operator? : Symbol α → Option Operator
  | number _ => none
  | operator op => some op

/-- An operator that binds less tightly than `op`; a number never is one. -/
def isLooserThan (op : Operator) : Symbol α → Bool
  | number _ => false
  | operator own => op.bindsTighterThan own

protected def beq [BEq α] : Symbol α → Symbol α → Bool
  | number left, number right => left == right
  | operator left, operator right => left == right
  | _, _ => false

instance [BEq α] : BEq (Symbol α) := ⟨Symbol.beq⟩

def write [Number α] : Symbol α → String
  | number value => Number.write value
  | operator op => op.write

end Symbol

end InfixArith
