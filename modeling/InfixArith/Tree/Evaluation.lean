import InfixArith.Error
import InfixArith.Tree.Basic
/-!
# The value of a tree

An operator is applied to the values of its two operands, the left one evaluated first; a number is
its own value, whatever hangs below it. The walk keeps the visits that are still to be made and the
operands that wait to be combined, both as stacks, so a tree of any depth is evaluated in constant
stack space. Entering an operator that has both operands leaves three visits: its left operand, its
right operand, and the combination of the two. One that lacks an operand ends the walk with an
error.

A tree is evaluated as a whole or as the operation at its root, and the two differ where there is no
operation: the empty tree has the value zero and a number its own, while neither is an operation.
-/

namespace InfixArith

variable {α : Type} [Number α]

inductive Visit (α : Type) where
  | enter (t : Tree α)
  | combine (op : Operator)

/-- Pending visits and waiting operands, the next ones first. -/
structure Walk (α : Type) where
  pending : List (Visit α)
  operands : List (Symbol α)

namespace Walk

/-- The entries that either stack has room for before it has to move. -/
def inlineSlots : Nat := 32

/-- A bound on the number of visits that a pending visit leads to. -/
def weight : Visit α → Nat
  | .enter t => 3 * t.size + 1
  | .combine _ => 1

def totalWeight : List (Visit α) → Nat
  | [] => 0
  | next :: pending => weight next + totalWeight pending

def visit : Visit α → Walk α → Except Error (Walk α)
  | .enter .empty, _ => .error .missingOperand
  | .enter (.node _ (.number value) _), walk => .ok ⟨walk.pending, .number value :: walk.operands⟩
  | .enter (.node left (.operator op) right), walk =>
      if left.isEmpty || right.isEmpty then .error .missingOperand
      else .ok ⟨.enter left :: .enter right :: .combine op :: walk.pending, walk.operands⟩
  | .combine op, ⟨pending, right :: left :: operands⟩ =>
      (left.combine op right).map fun value => ⟨pending, value :: operands⟩
  | .combine _, _ => .error .missingOperand

/-- The value that is left when no visit is pending. -/
def result (walk : Walk α) : Except Error α :=
  match walk.operands with
  | .number value :: _ => .ok value
  | .operator _ :: _ => .error .operandIsOperator
  | [] => .error .missingOperand

theorem visit_operator {left right : Tree α} (op : Operator) (walk : Walk α)
    (hleft : left ≠ .empty) (hright : right ≠ .empty) :
    visit (.enter (.node left (.operator op) right)) walk =
      .ok ⟨.enter left :: .enter right :: .combine op :: walk.pending, walk.operands⟩ := by
  rw [visit, Tree.isEmpty_eq_false hleft, Tree.isEmpty_eq_false hright]
  rfl

theorem visit_operator_of_empty {left right : Tree α} (op : Operator) (walk : Walk α)
    (h : left = .empty ∨ right = .empty) :
    visit (.enter (.node left (.operator op) right)) walk = .error .missingOperand := by
  rcases h with rfl | rfl
  · rfl
  · rw [visit, Tree.isEmpty, Bool.or_true]
    rfl

theorem totalWeight_lt_of_visit {next : Visit α} {walk after : Walk α}
    (h : visit next walk = .ok after) :
    totalWeight after.pending < weight next + totalWeight walk.pending := by
  unfold visit at h
  split at h
  · cases h
  · cases h
    simp [weight]
  · split at h
    · cases h
    · cases h
      simp [totalWeight, weight, Tree.size]
      omega
  · next right left operands =>
    cases hcombine : left.combine _ right <;> rw [hcombine] at h <;> cases h
    simp [weight]
  · cases h

def run (walk : Walk α) : Except Error α :=
  match _hpending : walk.pending with
  | [] => walk.result
  | next :: pending =>
      match _hvisit : visit next ⟨pending, walk.operands⟩ with
      | .ok after => after.run
      | .error error => .error error
termination_by totalWeight walk.pending
decreasing_by
  rw [_hpending]
  exact totalWeight_lt_of_visit _hvisit

theorem run_nil (operands : List (Symbol α)) : run ⟨[], operands⟩ = result ⟨[], operands⟩ := by
  rw [run]

theorem run_cons (next : Visit α) (pending : List (Visit α)) (operands : List (Symbol α)) :
    run ⟨next :: pending, operands⟩ = (visit next ⟨pending, operands⟩).bind run := by
  rw [run]
  dsimp only
  split
  next after hvisit =>
    rw [hvisit]
    rfl
  next error hvisit =>
    rw [hvisit]
    rfl

end Walk

namespace Tree

def operationValue (t : Tree α) : Except Error α :=
  match t with
  | node _ (.number _) _ => .error .numberIsNoOperator
  | _ => Walk.run ⟨[.enter t], []⟩

def evaluate (t : Tree α) : Except Error α :=
  match t with
  | empty => .ok Number.zero
  | node _ (.number value) _ => .ok value
  | node _ (.operator _) _ => t.operationValue

end Tree

end InfixArith
