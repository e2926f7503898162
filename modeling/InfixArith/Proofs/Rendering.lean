import InfixArith.Number.Ieee
import InfixArith.Proofs.Parsing
/-!
# Symbols written apart are read back

A sequence is written with one space between its symbols. If its numbers are written as words that
read back then the words of that text are those of the symbols, one for one, and whether a word is
meant as a number or as an operator is a matter of its place alone. So an alternating sequence is
read back as it is, and the tree of a text is found again from its listing.
-/

namespace InfixArith

open Sequence (Alternating)
open Text (words)

variable {α : Type} [Number α]

/-- The words of the symbols with single spaces between them. -/
def Sequence.write (symbols : List (Symbol α)) : String :=
  " ".intercalate (symbols.map Symbol.write)

/-- The numbers among symbols read back. -/
def Sequence.NumbersReadBack (symbols : List (Symbol α)) : Prop :=
  ∀ value, .number value ∈ symbols → Number.ReadsBack value

namespace Sequence

theorem write_ne_empty {symbols : List (Symbol α)} (h : NumbersReadBack symbols) {symbol : Symbol α}
    (hmem : symbol ∈ symbols) : symbol.write.toList ≠ [] := by
  cases symbol with
  | number value => exact mt String.toList_eq_nil_iff.mp (h value hmem).write_ne_empty
  | operator op =>
    change op.write.toList ≠ []
    rw [Operator.toList_write]
    exact List.cons_ne_nil _ _

theorem space_notMem_write {symbols : List (Symbol α)} (h : NumbersReadBack symbols)
    {symbol : Symbol α}
    (hmem : symbol ∈ symbols) : ' ' ∉ symbol.write.toList := by
  cases symbol with
  | number value => exact (h value hmem).space_notMem_write
  | operator op =>
    change ' ' ∉ op.write.toList
    rw [Operator.toList_write]
    cases op <;> decide

theorem words_write {symbols : List (Symbol α)} (h : NumbersReadBack symbols) :
    words (write symbols).toList = symbols.map (·.write.toList) := by
  have hspace : (" " : String).toList = [' '] := rfl
  rw [write, String.toList_intercalate, hspace, List.map_map]
  apply Text.words_intercalate
  · simpa using fun symbol hmem => write_ne_empty h hmem
  · simpa using fun symbol hmem => space_notMem_write h hmem

end Sequence

theorem Turn.symbol?_write {turn : Turn} {symbol : Symbol α}
    (h : ∀ value, symbol = .number value → Number.ReadsBack value)
    (hturn : symbol.isOperator = turn.isOperator) :
    turn.symbol? symbol.write.toList = some symbol := by
  cases symbol with
  | number value =>
    cases turn with
    | number =>
      change (Number.read? (String.ofList (Number.write value).toList)).map _ = _
      rw [String.ofList_toList, (h value rfl).read?_write]
      rfl
    | operator => cases hturn
  | operator op =>
    cases turn with
    | number => cases hturn
    | operator =>
      change Turn.operator.symbol? op.write.toList = _
      rw [Operator.toList_write, symbol?, Operator.ofGlyph?_glyph]
      rfl

theorem readWords_write {symbols : List (Symbol α)} (h : Sequence.NumbersReadBack symbols)
    {turn : Turn} (hrules : turn.Rules symbols) (mode : Mode) :
    readWords mode turn (symbols.map (·.write.toList)) = .ok symbols := by
  induction symbols generalizing turn with
  | nil => rfl
  | cons symbol symbols ih =>
    obtain ⟨hturn, hrest⟩ := Turn.rules_cons_iff.mp hrules
    have hsymbol :=
      Turn.symbol?_write (fun value hvalue => h value (hvalue ▸ List.mem_cons_self)) hturn
    rw [List.map_cons, readWords_cons, hsymbol]
    dsimp only
    rw [ih (fun value hmem => h value (List.mem_cons_of_mem _ hmem)) hrest]
    rfl

theorem lex_write {symbols : List (Symbol α)} (hnumbers : Sequence.NumbersReadBack symbols)
    (h : Alternating symbols) (mode : Mode) :
    (lex mode (Sequence.write symbols)).value = .ok symbols := by
  have hrules : Turn.number.Rules symbols := ⟨h.first, h.turns⟩
  rw [value_lex, Sequence.words_write hnumbers]
  exact readWords_write hnumbers hrules mode

/-- An alternating sequence is read back from its words, and a parsed tree from the words of its
listing. -/
theorem parse_write :
    (∀ symbols : List (Symbol α), Alternating symbols → Sequence.NumbersReadBack symbols →
        ∀ mode, (lex mode (Sequence.write symbols)).value = .ok symbols) ∧
      ∀ (mode : Mode) (text : String) (t : Tree α), (parse mode text).value = .ok t →
        Sequence.NumbersReadBack t.listing →
          ∀ mode', (parse mode' (Sequence.write t.listing)).value = .ok t := by
  refine ⟨fun symbols h hnumbers mode => lex_write hnumbers h mode,
    fun mode text t hparse hnumbers mode' => ?_⟩
  obtain ⟨-, halternating, htree⟩ := lex_of_parse hparse
  have hlex := lex_write hnumbers halternating mode'
  rw [value_lex] at hlex
  rw [parse_of_readWords hlex, ← htree]

/-- A negative number behind a minus, an infinity and no number at all. -/
theorem parse_write_negative :
    (∃ symbols : List (Symbol Float),
      symbols = [.number 7, .operator .subtract, .number (-2.5), .operator .multiply,
        .number (1 / 0), .operator .power, .number (0 / 0)] ∧
      Alternating symbols ∧ Sequence.NumbersReadBack symbols ∧
      Sequence.write symbols = "7 - -2.5 * inf ^ NaN" ∧
      (lex .lenient "7 - -2.5 * inf ^ NaN").value = .ok symbols) ∧
      ∃ t : Tree Float, (parse .strict "+7.0  - 25e-1 /").value = .ok t ∧
        Sequence.NumbersReadBack t.listing ∧
        Sequence.write t.listing = "7 - 2.5 /" ∧ (parse .lenient "7 - 2.5 /").value = .ok t := by
  obtain ⟨hlex, hparse⟩ := parse_write (α := Float)
  refine ⟨⟨_, rfl, ?_⟩,
    Tree.ofSymbols [.number 7, .operator .subtract, .number 2.5, .operator .divide], ?_⟩
  · have halternating : Alternating [.number 7, .operator .subtract, .number (-2.5),
        .operator .multiply, .number (1 / 0), .operator .power, .number (0 / 0 : Float)] :=
      ⟨by simp [Symbol.isOperator], by simp [Symbol.isOperator]⟩
    have hnumbers : Sequence.NumbersReadBack [.number 7, .operator .subtract, .number (-2.5),
        .operator .multiply, .number (1 / 0), .operator .power, .number (0 / 0 : Float)] := by
      intro value hvalue
      have hcases : value = 7 ∨ value = -2.5 ∨ value = 1 / 0 ∨ value = 0 / 0 := by
        simpa using hvalue
      obtain rfl | rfl | rfl | rfl := hcases <;>
        exact ⟨by decide +kernel, by decide +kernel, by decide +kernel⟩
    have hwrite : Sequence.write [.number 7, .operator .subtract, .number (-2.5),
        .operator .multiply, .number (1 / 0), .operator .power, .number (0 / 0 : Float)] =
        "7 - -2.5 * inf ^ NaN" := by
      decide +kernel
    have hback := hlex _ halternating hnumbers .lenient
    rw [hwrite] at hback
    exact ⟨halternating, hnumbers, hwrite, hback⟩
  · have hstrict : (parse .strict "+7.0  - 25e-1 /").value =
        .ok (Tree.ofSymbols
          [.number 7, .operator .subtract, .number (2.5 : Float), .operator .divide]) :=
      parse_of_readWords (by decide +kernel)
    have hlisting : (Tree.ofSymbols
        [.number 7, .operator .subtract, .number (2.5 : Float), .operator .divide]).listing =
        [.number 7, .operator .subtract, .number 2.5, .operator .divide] := by
      rw [Tree.listing_eq_symbols, Tree.symbols_ofSymbols]
    have hnumbers : Sequence.NumbersReadBack
        (Tree.ofSymbols
          [.number 7, .operator .subtract, .number (2.5 : Float), .operator .divide]).listing := by
      intro value hvalue
      have hcases : value = 7 ∨ value = 2.5 := by simpa [hlisting] using hvalue
      obtain rfl | rfl := hcases <;> exact ⟨by decide +kernel, by decide +kernel, by decide +kernel⟩
    have hwrite : Sequence.write
        [.number 7, .operator .subtract, .number (2.5 : Float), .operator .divide] =
        "7 - 2.5 /" := by
      decide +kernel
    have hback := hparse _ _ _ hstrict hnumbers .lenient
    rw [hlisting, hwrite] at hback
    exact ⟨hstrict, hnumbers, by rw [hlisting, hwrite], hback⟩

end InfixArith
