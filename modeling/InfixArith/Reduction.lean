import InfixArith.Number
/-!
# Reduction with two stacks

A second way from a sequence of numbers and operators to its value, without a tree. Values and
pending operators are kept on two stacks. Before an operator is stacked, the operators at the top
that it does not bind tighter than are applied, and at the end all that are left are.
-/

namespace InfixArith

/-- Values and pending operators, the latest first. -/
structure Reduction (α : Type) where
  values : List α
  pending : List Operator

namespace Reduction

variable {α : Type} [Number α]

def start (value : α) : Reduction α := ⟨[value], []⟩

def reduce (op : Operator) : List α → List α
  | right :: left :: values => op.apply left right :: values
  -- Never the case, as there is one more value than there are pending operators.
  | values => values

/-- The operators that stay pending when another one is to be stacked. -/
def settledOperators (op : Operator) : List Operator → List Operator
  | [] => []
  | top :: pending =>
      if op.bindsTighterThan top then top :: pending else settledOperators op pending

/-- The values once the operators that do not stay pending are applied. -/
def settledValues (op : Operator) : List α → List Operator → List α
  | values, [] => values
  | values, top :: pending =>
      if op.bindsTighterThan top then values else settledValues op (reduce top values) pending

def push (reduction : Reduction α) (op : Operator) (value : α) : Reduction α :=
  ⟨value :: settledValues op reduction.values reduction.pending,
    op :: settledOperators op reduction.pending⟩

/-- The value at the bottom once all operators are applied. -/
def finish? (reduction : Reduction α) : Option α :=
  (reduction.pending.foldl (fun values op => reduce op values) reduction.values).getLast?

/-- The value of a number followed by operators, each with the number behind it. -/
def evaluate? (first : α) (rest : List (Operator × α)) : Option α :=
  (rest.foldl (fun reduction entry => reduction.push entry.1 entry.2) (start first)).finish?

end Reduction

end InfixArith
