import InfixArith.Proofs.Grouping
import InfixArith.Tree.Evaluation
/-!
# Evaluation as recursion

The walk over a tree computes what a recursion over the tree would: the value of an operand is its
number, or its operator applied to the values of its two operands. Visiting an operand leaves its
value on the operands and everything else as it was. An operand has a value unless some operator in
it lacks an operand, and in a grouped tree that can be seen from the symbols alone.
-/

namespace InfixArith

variable {α : Type} [Number α]

namespace Tree

/-- The value of a tree that stands as an operand. -/
def operandValue : Tree α → Except Error α
  | empty => .error .missingOperand
  | node _ (.number value) _ => .ok value
  | node left (.operator op) right =>
      left.operandValue.bind fun x => right.operandValue.bind fun y => .ok (op.apply x y)

theorem eq_missingOperand_of_operandValue {t : Tree α} {error : Error}
    (h : t.operandValue = .error error) : error = .missingOperand := by
  induction t with
  | empty =>
    cases h
    rfl
  | node left symbol right ihleft ihright =>
    cases symbol with
    | number value => cases h
    | operator op =>
      rw [operandValue, bind_eq_error_iff] at h
      obtain hleft | ⟨x, -, h⟩ := h
      · exact ihleft hleft
      · obtain hright | ⟨y, -, h⟩ := bind_eq_error_iff.mp h
        · exact ihright hright
        · cases h

theorem operandValue_of_empty {left right : Tree α} (op : Operator)
    (h : left = empty ∨ right = empty) :
    (node left (.operator op) right).operandValue = .error .missingOperand := by
  rcases h with rfl | rfl
  · rfl
  · rw [operandValue]
    cases hleft : left.operandValue with
    | ok x => rfl
    | error error => exact congrArg _ (eq_missingOperand_of_operandValue hleft)

end Tree

/-- A visit to an operand leaves its value behind, and nothing else. -/
theorem Walk.run_enter (t : Tree α) (pending : List (Visit α)) (operands : List (Symbol α)) :
    Walk.run ⟨.enter t :: pending, operands⟩ =
      t.operandValue.bind fun value => Walk.run ⟨pending, .number value :: operands⟩ := by
  induction t generalizing pending operands with
  | empty =>
    rw [run_cons]
    rfl
  | node left symbol right ihleft ihright =>
    cases symbol with
    | number value =>
      rw [run_cons]
      rfl
    | operator op =>
      rw [run_cons]
      by_cases hempty : left = .empty ∨ right = .empty
      · rw [visit_operator_of_empty op _ hempty, Tree.operandValue_of_empty op hempty]
        rfl
      · obtain ⟨hleft, hright⟩ := not_or.mp hempty
        rw [visit_operator op _ hleft hright]
        change Walk.run ⟨.enter left :: .enter right :: .combine op :: pending, operands⟩ = _
        rw [ihleft, Tree.operandValue]
        cases left.operandValue with
        | error error => rfl
        | ok x =>
          change Walk.run ⟨.enter right :: .combine op :: pending, .number x :: operands⟩ = _
          rw [ihright]
          cases right.operandValue with
          | error error => rfl
          | ok y =>
            change Walk.run ⟨.combine op :: pending, .number y :: .number x :: operands⟩ = _
            rw [run_cons]
            rfl

namespace Tree

theorem run_enter_eq_operandValue (t : Tree α) : Walk.run ⟨[.enter t], []⟩ = t.operandValue := by
  rw [Walk.run_enter]
  cases t.operandValue with
  | error error => rfl
  | ok value =>
    change Walk.run ⟨[], [.number value]⟩ = .ok value
    rw [Walk.run_nil]
    rfl

theorem operationValue_operator (left : Tree α) (op : Operator) (right : Tree α) :
    (node left (.operator op) right).operationValue =
      (node left (.operator op) right).operandValue := by
  rw [operationValue, run_enter_eq_operandValue]
  exact nofun

theorem evaluate_eq_operandValue {t : Tree α} (h : t ≠ empty) : t.evaluate = t.operandValue := by
  cases t with
  | empty => exact absurd rfl h
  | node left symbol right =>
    cases symbol with
    | number value => rfl
    | operator op => exact operationValue_operator left op right

theorem evaluate_ofSymbols {sequence : List (Symbol α)} (h : sequence ≠ []) :
    (ofSymbols sequence).evaluate = (ofSymbols sequence).operandValue := by
  apply evaluate_eq_operandValue
  intro hempty
  apply h
  rw [← symbols_ofSymbols sequence, hempty]
  rfl

theorem eq_missingOperand_of_evaluate {t : Tree α} {error : Error} (h : t.evaluate = .error error) :
    error = .missingOperand := by
  by_cases hempty : t = empty
  · subst hempty
    cases h
  · rw [evaluate_eq_operandValue hempty] at h
    exact eq_missingOperand_of_operandValue h

theorem operandValue_node_eq_ok_iff {left right : Tree α} {op : Operator} {value : α} :
    (node left (.operator op) right).operandValue = .ok value ↔
      ∃ x y, left.operandValue = .ok x ∧ right.operandValue = .ok y ∧ op.apply x y = value := by
  simp only [operandValue, bind_eq_ok_iff, Except.ok.injEq, exists_and_left]

theorem Grouped.exists_operandValue_iff {t : Tree α} (h : t.Grouped) :
    (∃ value, t.operandValue = .ok value) ↔ Sequence.Saturated t.symbols := by
  induction t with
  | empty =>
    refine ⟨nofun, fun hsaturated => ?_⟩
    exact absurd rfl hsaturated.startsWithNumber.ne_nil
  | node left symbol right ihleft ihright =>
    cases symbol with
    | number value =>
      refine ⟨fun _ => Sequence.saturated_of_numbers ?_ h.isOperator_eq_false,
        fun _ => ⟨value, rfl⟩⟩
      rw [symbols]
      exact List.append_ne_nil_of_right_ne_nil _ (List.cons_ne_nil _ _)
    | operator op =>
      obtain ⟨-, hleft, hright⟩ := h
      rw [symbols, Sequence.saturated_append_operator, ← ihleft hleft, ← ihright hright]
      simp only [operandValue_node_eq_ok_iff]
      constructor
      · intro h
        obtain ⟨value, x, y, hx, hy, -⟩ := h
        exact ⟨⟨x, hx⟩, y, hy⟩
      · intro h
        obtain ⟨⟨x, hx⟩, y, hy⟩ := h
        exact ⟨_, x, y, hx, hy, rfl⟩

theorem Grouped.operandValue_eq_error_iff {t : Tree α} (h : t.Grouped) :
    t.operandValue = .error .missingOperand ↔ ¬ Sequence.Saturated t.symbols := by
  rw [← h.exists_operandValue_iff]
  cases hvalue : t.operandValue with
  | ok value => simp
  | error error => simp [eq_missingOperand_of_operandValue hvalue]

theorem exists_value_of_saturated {sequence : List (Symbol α)} (h : Sequence.Saturated sequence) :
    ∃ value, (ofSymbols sequence).operandValue = .ok value := by
  rw [(grouped_ofSymbols sequence).exists_operandValue_iff, symbols_ofSymbols]
  exact h

/-! ### Alternating sequences -/

theorem evaluate_ofSymbols_of_endsWithOperator {sequence : List (Symbol α)}
    (h : Sequence.EndsWithOperator sequence) :
    (ofSymbols sequence).evaluate = .error .missingOperand := by
  have hne : sequence ≠ [] := by
    rintro rfl
    obtain ⟨op, hop⟩ := h
    cases hop
  rw [evaluate_ofSymbols hne, (grouped_ofSymbols sequence).operandValue_eq_error_iff,
    symbols_ofSymbols]
  exact fun hsaturated => h.not_endsWithNumber hsaturated.endsWithNumber

theorem exists_evaluate_of_not_endsWithOperator {sequence : List (Symbol α)}
    (halternating : Sequence.Alternating sequence) (h : ¬ Sequence.EndsWithOperator sequence) :
    ∃ value, (ofSymbols sequence).evaluate = .ok value := by
  by_cases hne : sequence = []
  · subst hne
    exact ⟨Number.zero, rfl⟩
  · have hend := (Sequence.endsWithNumber_or_endsWithOperator hne).resolve_right h
    rw [evaluate_ofSymbols hne]
    exact exists_value_of_saturated (halternating.saturated hend)

end Tree

end InfixArith
