import InfixArith.Symbol
/-!
# What can go wrong

Two errors come out of reading a text, and carry what could not be read. The others come out of
evaluating: an operator that lacks an operand, an operator where a number has to stand, and a number
that is asked for its operands. They are ordered by kind, and within a kind by what they carry.
-/

namespace InfixArith

inductive Error where
  /-- A word of one character stands in an operator's place and is none. -/
  | unknownOperator (glyph : Char)
  /-- A word stands in a number's place and is none. -/
  | notANumber (word : String)
  | operandIsOperator
  | numberIsNoOperator
  | missingOperand
deriving DecidableEq, Repr

namespace Error

def message : Error → String
  | unknownOperator glyph => "unknown operator \"" ++ glyph.toString ++ "\""
  | notANumber word => word ++ " is not a number"
  | operandIsOperator => "mathematical operation passed as numeric value"
  | numberIsNoOperator => "numeric value evaluated as mathematical operator"
  | missingOperand => "operator is missing an operand"

def rank : Error → Nat
  | unknownOperator _ => 0
  | notANumber _ => 1
  | operandIsOperator => 2
  | numberIsNoOperator => 3
  | missingOperand => 4

protected def compare : Error → Error → Ordering
  | unknownOperator left, unknownOperator right => compare left right
  | notANumber left, notANumber right => compare left right
  | left, right => compare left.rank right.rank

instance : Ord Error := ⟨Error.compare⟩

end Error

section Results

variable {ε β γ : Type}

theorem map_eq_error_iff {result : Except ε β} {f : β → γ} {error : ε} :
    result.map f = .error error ↔ result = .error error := by
  cases result <;> simp [Except.map]

theorem map_eq_ok_iff {result : Except ε β} {f : β → γ} {mapped : γ} :
    result.map f = .ok mapped ↔ ∃ value, result = .ok value ∧ f value = mapped := by
  cases result <;> simp [Except.map]

theorem bind_eq_error_iff {result : Except ε β} {f : β → Except ε γ} {error : ε} :
    result.bind f = .error error ↔
      result = .error error ∨ ∃ value, result = .ok value ∧ f value = .error error := by
  cases result <;> simp [Except.bind]

theorem bind_eq_ok_iff {result : Except ε β} {f : β → Except ε γ} {bound : γ} :
    result.bind f = .ok bound ↔ ∃ value, result = .ok value ∧ f value = .ok bound := by
  cases result <;> simp [Except.bind]

end Results

variable {α : Type} [Number α]

/-- Applies an operator to two symbols, which both have to be numbers. -/
def Symbol.combine (op : Operator) : Symbol α → Symbol α → Except Error (Symbol α)
  | .number left, .number right => .ok (.number (op.apply left right))
  | _, _ => .error .operandIsOperator

end InfixArith
