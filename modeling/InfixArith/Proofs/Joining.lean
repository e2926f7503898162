import InfixArith.Number.Ieee
import InfixArith.Proofs.Parsing
/-!
# Joining two texts with an operator

Two texts with an operator between them are read as their symbols with the operator between,
provided that the first is read to its end and ends with a number. If everything in the first binds
at least as tightly as the operator and everything in the second more tightly, the operator becomes
the root above the trees of the two, and so applies to their values. An error of the second text is
one of the joined text in any case: what was not read alone is not read behind an operator, and what
lacked an operand still lacks it.
-/

namespace InfixArith

open Sequence (operators Alternating EndsWithNumber Saturated)
open Text (words)

variable {α : Type} [Number α]

/-! ### The joined text -/

theorem words_join (left right : String) (op : Operator) :
    words (left ++ " " ++ op.write ++ " " ++ right).toList =
      words left.toList ++ [op.glyph] :: words right.toList := by
  have hspace : (" " : String).toList = [' '] := rfl
  have hword : words [op.glyph] = [[op.glyph]] := by
    apply Text.words_of_no_space (List.cons_ne_nil _ _)
    intro c hc
    rw [List.mem_singleton.mp hc]
    cases op <;> rfl
  simp only [String.toList_append, hspace, Operator.toList_write, List.append_assoc,
    List.cons_append, List.nil_append]
  rw [Text.words_append_space rfl, ← List.singleton_append, Text.words_append_space rfl, hword]
  rfl

theorem readWords_join {mode : Mode} {used : List (List Char)} {symbols : List (Symbol α)}
    (h : readWords mode .number used = .ok symbols) (hall : symbols.length = used.length)
    (hend : EndsWithNumber symbols) (op : Operator) (rest : List (List Char)) :
    (readWords mode .number (used ++ [op.glyph] :: rest) : Except Error (List (Symbol α))) =
      (readWords mode .number rest).map (symbols ++ .operator op :: ·) := by
  rw [readWords_append h hall, Turn.behind_eq_operator_iff.mpr hend, readWords,
    Operator.ofGlyph?_glyph]
  dsimp only
  cases (readWords mode .number rest : Except Error (List (Symbol α))) <;> rfl

theorem ne_nil_of_readWords {ws : List (List Char)} {symbols : List (Symbol α)} (hws : ws ≠ [])
    (h : readWords .strict .number ws = .ok symbols) : symbols ≠ [] := by
  obtain ⟨word, ws, rfl⟩ := List.exists_cons_of_ne_nil hws
  rw [readWords] at h
  split at h
  · obtain ⟨read, -, rfl⟩ := map_eq_ok_iff.mp h
    exact List.cons_ne_nil _ _
  · cases h

/-! ### The values of joined sequences -/

namespace Tree

variable {left right : List (Symbol α)} {op : Operator}

theorem evaluate_join {x y : α} (hx : (ofSymbols left).operandValue = .ok x) (hne : right ≠ [])
    (hy : (ofSymbols right).evaluate = .ok y)
    (hle : ∀ own ∈ operators left, op.precedence ≤ own.precedence)
    (hlt : ∀ own ∈ operators right, op.precedence < own.precedence) :
    (ofSymbols (left ++ .operator op :: right)).evaluate = .ok (op.apply x y) := by
  have hjoined : left ++ .operator op :: right ≠ [] :=
    List.append_ne_nil_of_right_ne_nil _ (List.cons_ne_nil _ _)
  rw [evaluate_ofSymbols hne] at hy
  rw [evaluate_ofSymbols hjoined, ofSymbols_append_operator hle hlt]
  exact operandValue_node_eq_ok_iff.mpr ⟨x, y, hx, hy, rfl⟩

/-- Nothing on the left makes up for what is missing on the right. -/
theorem evaluate_join_error {error : Error} (hne : right ≠ [])
    (h : (ofSymbols right).evaluate = .error error) :
    (ofSymbols (left ++ .operator op :: right)).evaluate = .error error := by
  have hjoined : left ++ .operator op :: right ≠ [] :=
    List.append_ne_nil_of_right_ne_nil _ (List.cons_ne_nil _ _)
  rw [evaluate_ofSymbols hne] at h
  have hmissing := eq_missingOperand_of_operandValue h
  subst hmissing
  rw [(grouped_ofSymbols right).operandValue_eq_error_iff, symbols_ofSymbols] at h
  rw [evaluate_ofSymbols hjoined, (grouped_ofSymbols _).operandValue_eq_error_iff,
    symbols_ofSymbols, Sequence.saturated_append_operator]
  exact fun hboth => h hboth.2

end Tree

/-- An operator applies to the values of the texts around it, if precedence allows. An error on its
right is the error of the whole. -/
theorem evaluateText_join (left right : String) (op : Operator) (symbols : List (Symbol α))
    (hlex : (lex .strict left).value = .ok symbols)
    (hall : symbols.length = (words left.toList).length)
    (hend : EndsWithNumber symbols) (hright : words right.toList ≠ []) :
    ∃ x : α, evaluateText left = .ok x ∧
      ((∀ own ∈ operators symbols, op.precedence ≤ own.precedence) →
        ∀ (y : α) (symbols' : List (Symbol α)), (lex .strict right).value = .ok symbols' →
          evaluateText right = .ok y →
          (∀ own ∈ operators symbols', op.precedence < own.precedence) →
          evaluateText (left ++ " " ++ op.write ++ " " ++ right) = .ok (op.apply x y)) ∧
      ∀ error : Error, (evaluateText right : Except Error α) = .error error →
        (evaluateText (left ++ " " ++ op.write ++ " " ++ right) : Except Error α) =
          .error error := by
  have hread := (value_lex _ _).symm.trans hlex
  have hsaturated : Saturated symbols := (alternating_of_readWords hread).saturated hend
  obtain ⟨x, hx⟩ := Tree.exists_value_of_saturated hsaturated
  -- Whatever the right text is read as stands behind the operator.
  have hjoined : (evaluateText (left ++ " " ++ op.write ++ " " ++ right) : Except Error α) =
      (readWords .strict .number (words right.toList)).bind fun symbols' =>
        (Tree.ofSymbols (symbols ++ .operator op :: symbols')).evaluate := by
    rw [evaluateText_eq, words_join, readWords_join hread hall hend]
    cases (readWords .strict .number (words right.toList) : Except Error (List (Symbol α))) <;> rfl
  refine ⟨x, ?_, ?_, ?_⟩
  · rw [evaluateText_eq_operandValue hlex hend.ne_nil, hx]
  · intro hle y symbols' hlex' hy hlt
    rw [value_lex] at hlex'
    rw [evaluateText_eq, hlex'] at hy
    rw [hjoined, hlex']
    exact Tree.evaluate_join hx (ne_nil_of_readWords hright hlex') hy hle hlt
  · intro error herror
    rw [evaluateText_eq] at herror
    rw [hjoined]
    cases hreadright : (readWords .strict .number (words right.toList) :
      Except Error (List (Symbol α))) with
    | error inner =>
      rw [hreadright] at herror
      exact herror
    | ok symbols' =>
      rw [hreadright] at herror
      exact Tree.evaluate_join_error (ne_nil_of_readWords hright hreadright) herror

/-- Five less twelve, and five less nothing. -/
theorem evaluateText_join_subtract :
    (lex .strict "7 -  2").value = .ok [.number 7, .operator .subtract, .number (2 : Float)] ∧
      evaluateText ("7 -  2" ++ " " ++ Operator.subtract.write ++ " " ++ " 3 * 4") =
        .ok (-7 : Float) ∧
      (evaluateText ("7 -  2" ++ " " ++ Operator.subtract.write ++ " " ++ "3 *") :
        Except Error Float) =
        .error .missingOperand := by
  have hleft : (lex .strict "7 -  2").value =
      .ok [.number 7, .operator .subtract, .number (2 : Float)] :=
    (value_lex _ _).trans (by decide +kernel)
  have hright : (lex .strict " 3 * 4").value =
      .ok [.number 3, .operator .multiply, .number (4 : Float)] :=
    (value_lex _ _).trans (by decide +kernel)
  have hdangling : (lex .strict "3 *").value = .ok [.number 3, .operator (α := Float) .multiply] :=
    (value_lex _ _).trans (by decide +kernel)
  have hend : EndsWithNumber [.number 7, .operator .subtract, .number (2 : Float)] := ⟨2, rfl⟩
  have hfive : evaluateText "7 -  2" = .ok (5 : Float) := by
    rw [evaluateText_eq_operandValue hleft (List.cons_ne_nil _ _)]
    decide +kernel
  have htwelve : evaluateText " 3 * 4" = .ok (12 : Float) := by
    rw [evaluateText_eq_operandValue hright (List.cons_ne_nil _ _)]
    decide +kernel
  have hmissing : (evaluateText "3 *" : Except Error Float) = .error .missingOperand := by
    rw [evaluateText_eq_operandValue hdangling (List.cons_ne_nil _ _)]
    decide +kernel
  obtain ⟨x, hx, hvalue, -⟩ :=
    evaluateText_join "7 -  2" " 3 * 4" .subtract _ hleft (by decide) hend (by decide)
  obtain ⟨-, -, -, herror⟩ :=
    evaluateText_join "7 -  2" "3 *" .subtract _ hleft (by decide) hend (by decide)
  refine ⟨hleft, ?_, herror _ hmissing⟩
  obtain rfl : x = 5 := Except.ok.inj (hx.symm.trans hfive)
  rw [hvalue (by decide) 12 _ hright htwelve (by decide)]
  decide +kernel

end InfixArith
