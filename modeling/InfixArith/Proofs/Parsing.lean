import InfixArith.Expression
import InfixArith.Proofs.Operands
import InfixArith.Proofs.Reading
/-!
# What parsing adds to reading

A parse fails as the reading of the text does, and otherwise gives the tree of the symbols that are
read, which lists them again. These alternate, so the tree has a value unless the last of them is an
operator.
-/

namespace InfixArith

open Sequence (Alternating EndsWithOperator)
open Text (words)

variable {α : Type} [Number α]

theorem value_parse (mode : Mode) (text : String) :
    ((parse mode text).value : Except Error (Tree α)) =
      (readWords mode .number (words text.toList)).map Tree.ofSymbols := by
  rw [← value_lex, parse]
  split
  next hempty =>
    rw [String.isEmpty_iff.mp hempty, value_lex]
    rfl
  · dsimp only
    split
    next error hlexed => rw [hlexed]; rfl
    next symbols hlexed =>
      rw [hlexed]
      exact congrArg Except.ok (Tree.value_insertAll _ _ _)

theorem value_evaluateIn (mode : Mode) (text : String) :
    ((evaluateIn mode text).value : Except Error α) = (parse mode text).value.bind Tree.evaluate :=
  rfl

theorem evaluateText_eq (text : String) :
    (evaluateText text : Except Error α) =
      (readWords .strict .number (words text.toList)).bind fun symbols =>
        (Tree.ofSymbols symbols).evaluate := by
  rw [evaluateText, value_evaluateIn, value_parse]
  cases (readWords .strict .number (words text.toList) : Except Error (List (Symbol α))) <;> rfl

theorem evaluateText_eq_operandValue {text : String} {symbols : List (Symbol α)}
    (h : (lex .strict text).value = .ok symbols) (hne : symbols ≠ []) :
    evaluateText text = (Tree.ofSymbols symbols).operandValue := by
  rw [value_lex] at h
  rw [evaluateText_eq, h]
  exact Tree.evaluate_ofSymbols hne

theorem lex_of_parse {mode : Mode} {text : String} {t : Tree α}
    (h : (parse mode text).value = .ok t) :
    (lex mode text).value = .ok t.listing ∧ Alternating t.listing ∧
    t = Tree.ofSymbols t.listing := by
  rw [value_parse] at h
  obtain ⟨symbols, hread, rfl⟩ := map_eq_ok_iff.mp h
  rw [value_lex, Tree.listing_eq_symbols, Tree.symbols_ofSymbols]
  exact ⟨hread, alternating_of_readWords hread, rfl⟩

theorem parse_of_readWords {mode : Mode} {text : String} {symbols : List (Symbol α)}
    (h : readWords mode .number (words text.toList) = .ok symbols) :
    (parse mode text).value = .ok (Tree.ofSymbols symbols) := by
  rw [value_parse, h]
  rfl

/-- A parsed tree lacks an operand if and only if it ends with an operator. -/
theorem evaluate_of_parse {mode : Mode} {text : String} {t : Tree α}
    (h : (parse mode text).value = .ok t) :
    (EndsWithOperator t.listing → t.evaluate = .error .missingOperand) ∧
      (¬ EndsWithOperator t.listing → ∃ value, t.evaluate = .ok value) := by
  obtain ⟨-, halternating, htree⟩ := lex_of_parse h
  constructor
  · intro hend
    rw [htree]
    exact Tree.evaluate_ofSymbols_of_endsWithOperator hend
  · intro hend
    rw [htree]
    exact Tree.exists_evaluate_of_not_endsWithOperator halternating hend

end InfixArith
