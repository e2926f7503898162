import InfixArith.Proofs.Numerals
import InfixArith.Proofs.Rendering
/-!
# Symbols written together

A tree is also written without spaces between its symbols, and what is written then is a single
word. If it begins with a number and goes on, it goes on with an operator. The glyph of that
operator stands neither first in the word nor behind the letter of an exponent, since numbers are
written without one, so the word is no number and the text is refused as a whole. Hence what is
written without spaces is read as the same tree or as none.
-/

namespace InfixArith

open Sequence (Alternating)
open Text (words)

variable {α : Type} [Number α]

/-- Numbers are written without an exponent, and only number words are read. -/
structure Number.HasNumeralWords (α : Type) [Number α] : Prop where
  isDigit_of_mem_write : ∀ (value : α) {c : Char}, c ∈ (Number.write value).toList →
    c.isDigit = true ∨ c ∈ Numeral.marks
  isNumberWord_of_read? : ∀ {word : String} {value : α}, Number.read? word = some value →
    Numeral.IsNumberWord word.toList

theorem BinaryFormat.isNumberWord_of_readBits? {format : BinaryFormat} {word : String} {bits : Nat}
    (h : format.readBits? word = some bits) : Numeral.IsNumberWord word.toList := by
  obtain ⟨numeral, hnumeral, -⟩ := Option.map_eq_some_iff.mp h
  exact Numeral.isNumberWord_of_ofWord? hnumeral

theorem float_hasNumeralWords : Number.HasNumeralWords Float where
  isDigit_of_mem_write _ _ h := BinaryFormat.isDigit_of_mem_writeBits h
  isNumberWord_of_read? h := by
    obtain ⟨bits, hbits, -⟩ := Option.map_eq_some_iff.mp h
    exact BinaryFormat.isNumberWord_of_readBits? hbits

theorem float32_hasNumeralWords : Number.HasNumeralWords Float32 where
  isDigit_of_mem_write _ _ h := BinaryFormat.isDigit_of_mem_writeBits h
  isNumberWord_of_read? h := by
    obtain ⟨bits, hbits, -⟩ := Option.map_eq_some_iff.mp h
    exact BinaryFormat.isNumberWord_of_readBits? hbits

namespace Sequence

/-- The words of the symbols, one behind the other. -/
def writeTogether (symbols : List (Symbol α)) : String := String.join (symbols.map Symbol.write)

theorem toList_writeTogether (symbols : List (Symbol α)) :
    (writeTogether symbols).toList = symbols.flatMap (·.write.toList) := by
  rw [writeTogether, String.toList_join, List.flatMap_map]

theorem words_writeTogether {symbols : List (Symbol α)} (h : NumbersReadBack symbols)
    (hne : symbols ≠ []) :
    words (writeTogether symbols).toList = [(writeTogether symbols).toList] := by
  rw [toList_writeTogether]
  apply Text.words_of_no_space
  · obtain ⟨symbol, rest, rfl⟩ := List.exists_cons_of_ne_nil hne
    rw [List.flatMap_cons]
    exact List.append_ne_nil_of_left_ne_nil (write_ne_empty h List.mem_cons_self) _
  · intro c hc
    obtain ⟨symbol, hmem, hc⟩ := List.mem_flatMap.mp hc
    have hspace : c ≠ ' ' := by
      rintro rfl
      exact space_notMem_write h hmem hc
    simpa [Text.isSpace] using hspace

omit [Number α] in
theorem Alternating.cases {symbols : List (Symbol α)} (h : Alternating symbols) :
    symbols = [] ∨ (∃ value, symbols = [.number value]) ∨
      ∃ value op rest, symbols = .number value :: .operator op :: rest := by
  rcases symbols with _ | ⟨first, _ | ⟨second, rest⟩⟩
  · exact .inl rfl
  · obtain ⟨value, rfl⟩ := Symbol.isOperator_eq_false_iff.mp (h.first first rfl)
    exact .inr (.inl ⟨value, rfl⟩)
  · obtain ⟨value, rfl⟩ := Symbol.isOperator_eq_false_iff.mp (h.first first rfl)
    have hturn := (List.isChain_cons_cons.mp h.turns).1
    cases second with
    | number value' => exact absurd rfl hturn
    | operator op => exact .inr (.inr ⟨value, op, rest, rfl⟩)

/-- A number with an operator behind it is not written as a number. -/
theorem read?_writeTogether_eq_none (hwords : Number.HasNumeralWords α) {value : α}
    (hvalue : Number.ReadsBack value) (op : Operator) (rest : List (Symbol α)) :
    (Number.read? (writeTogether (.number value :: .operator op :: rest)) : Option α) = none := by
  rw [Option.eq_none_iff_forall_ne_some]
  intro read hread
  have hword := hwords.isNumberWord_of_read? hread
  have hsplit : (writeTogether (.number value :: .operator op :: rest)).toList =
      (Number.write value).toList ++ op.glyph :: rest.flatMap (·.write.toList) := by
    rw [toList_writeTogether, List.flatMap_cons, List.flatMap_cons]
    change (Number.write value).toList ++ (op.write.toList ++ _) = _
    rw [Operator.toList_write, List.singleton_append]
  rw [hsplit] at hword
  have hne : (Number.write value).toList ≠ [] :=
    mt String.toList_eq_nil_iff.mp hvalue.write_ne_empty
  obtain ⟨letter, hmem, hletter⟩ := hword.exists_letter hne
  have hchar := hwords.isDigit_of_mem_write value hmem
  obtain rfl | rfl := hletter <;> exact absurd hchar (by decide)

end Sequence

theorem readWords_writeTogether_number {value : α} (h : Number.ReadsBack value) :
    readWords .strict .number [(Sequence.writeTogether [.number value]).toList] =
      .ok [.number value] := by
  have hword : Sequence.writeTogether [.number value] = Number.write value := by
    rw [Sequence.writeTogether, List.map_singleton, String.join_cons, String.join_nil,
      String.append_empty]
    rfl
  rw [hword, readWords, String.ofList_toList, h.read?_write]
  rfl

theorem parse_writeTogether_of_length_le {symbols : List (Symbol α)} (h : Alternating symbols)
    (hnumbers : Sequence.NumbersReadBack symbols) (hlength : symbols.length ≤ 1) :
    (parse .strict (Sequence.writeTogether symbols)).value = .ok (Tree.ofSymbols symbols) := by
  obtain rfl | ⟨value, rfl⟩ | ⟨value, op, rest, rfl⟩ := h.cases
  · rfl
  · apply parse_of_readWords
    rw [Sequence.words_writeTogether hnumbers (List.cons_ne_nil _ _)]
    exact readWords_writeTogether_number (hnumbers value List.mem_cons_self)
  · simp at hlength

theorem parse_writeTogether_of_lt_length (hwords : Number.HasNumeralWords α)
    {symbols : List (Symbol α)}
    (h : Alternating symbols) (hnumbers : Sequence.NumbersReadBack symbols)
    (hlength : 1 < symbols.length) :
    ((parse .strict (Sequence.writeTogether symbols)).value : Except Error (Tree α)) =
      .error (.notANumber (Sequence.writeTogether symbols)) := by
  obtain rfl | ⟨value, rfl⟩ | ⟨value, op, rest, rfl⟩ := h.cases
  · simp at hlength
  · simp at hlength
  · have hnone :=
      Sequence.read?_writeTogether_eq_none hwords (hnumbers value List.mem_cons_self) op rest
    have hword := Sequence.words_writeTogether hnumbers (List.cons_ne_nil _ _)
    rw [value_parse, hword, readWords, String.ofList_toList, hnone]
    rfl

/-- Without spaces a parsed tree of one symbol is read back. Any larger one is refused as a whole.
-/
theorem parse_write_unspaced (hwords : Number.HasNumeralWords α) (mode : Mode) (text : String)
    (t : Tree α)
    (hparse : (parse mode text).value = .ok t) (hnumbers : Sequence.NumbersReadBack t.listing) :
    (t.listing.length ≤ 1 → (parse .strict t.write).value = .ok t) ∧
      (1 < t.listing.length →
        ((parse .strict t.write).value : Except Error (Tree α)) = .error (.notANumber t.write)) ∧
      (∀ t' : Tree α, (parse .strict t.write).value = .ok t' → t' = t) ∧
      ∀ value : α, evaluateText t.write = .ok value → t.evaluate = .ok value := by
  obtain ⟨-, halternating, htree⟩ := lex_of_parse hparse
  have hsmall : t.listing.length ≤ 1 → (parse .strict t.write).value = .ok t := by
    intro hlength
    have hback := parse_writeTogether_of_length_le halternating hnumbers hlength
    rwa [← htree] at hback
  have hlarge : 1 < t.listing.length →
      ((parse .strict t.write).value : Except Error (Tree α)) = .error (.notANumber t.write) :=
    parse_writeTogether_of_lt_length hwords halternating hnumbers
  have hsame : ∀ t' : Tree α, (parse .strict t.write).value = .ok t' → t' = t := by
    intro t' ht'
    obtain hlength | hlength := Nat.lt_or_ge 1 t.listing.length
    · cases ht'.symm.trans (hlarge hlength)
    · exact Except.ok.inj (ht'.symm.trans (hsmall hlength))
  refine ⟨hsmall, hlarge, hsame, fun value hvalue => ?_⟩
  rw [evaluateText, value_evaluateIn] at hvalue
  obtain ⟨t', ht', hvalue⟩ := bind_eq_ok_iff.mp hvalue
  rwa [hsame t' ht'] at hvalue

/-- A negative number behind a minus, and an infinity by itself. -/
theorem parse_write_unspaced_negative :
    (∃ t : Tree Float, (parse .lenient "7 - -25e-1 + é").value = .ok t ∧
      Sequence.NumbersReadBack t.listing ∧
      1 < t.listing.length ∧ t.write = "7--2.5+" ∧
      ((parse .strict "7--2.5+").value : Except Error (Tree Float)) =
        .error (.notANumber "7--2.5+")) ∧
      ∃ t : Tree Float, (parse .strict " -Infinity").value = .ok t ∧
        Sequence.NumbersReadBack t.listing ∧
        t.listing.length ≤ 1 ∧ t.write = "-inf" ∧ (parse .strict "-inf").value = .ok t := by
  constructor
  · have hlisting : (Tree.ofSymbols
        [.number 7, .operator .subtract, .number (-2.5 : Float), .operator .add]).listing =
        [.number 7, .operator .subtract, .number (-2.5), .operator .add] := by
      rw [Tree.listing_eq_symbols, Tree.symbols_ofSymbols]
    have hparse : (parse .lenient "7 - -25e-1 + é").value =
        .ok (Tree.ofSymbols
          [.number 7, .operator .subtract, .number (-2.5 : Float), .operator .add]) :=
      parse_of_readWords (by decide +kernel)
    have hnumbers : Sequence.NumbersReadBack
        (Tree.ofSymbols
          [.number 7, .operator .subtract, .number (-2.5 : Float), .operator .add]).listing := by
      intro value hvalue
      have hcases : value = 7 ∨ value = -2.5 := by simpa [hlisting] using hvalue
      obtain rfl | rfl := hcases <;> exact ⟨by decide +kernel, by decide +kernel, by decide +kernel⟩
    have hlength : 1 < (Tree.ofSymbols [.number 7, .operator .subtract, .number (-2.5 : Float),
        .operator .add]).listing.length := by
      rw [hlisting]
      decide
    have hwrite : (Tree.ofSymbols
        [.number 7, .operator .subtract, .number (-2.5 : Float), .operator .add]).write =
        "7--2.5+" := by
      rw [Tree.write, hlisting]
      decide +kernel
    obtain ⟨-, hrefused, -⟩ :=
      parse_write_unspaced float_hasNumeralWords .lenient _ _ hparse hnumbers
    exact ⟨_, hparse, hnumbers, hlength, hwrite, hwrite ▸ hrefused hlength⟩
  · have hlisting : (Tree.leaf (.number (-1 / 0 : Float))).listing = [.number (-1 / 0)] :=
      Tree.listing_eq_symbols _
    have hread : readWords .strict .number (words " -Infinity".toList) =
        .ok [.number (-1 / 0 : Float)] := by
      decide +kernel
    have hparse : (parse .strict " -Infinity").value = .ok (Tree.leaf (.number (-1 / 0 : Float))) :=
      parse_of_readWords hread
    have hnumbers : Sequence.NumbersReadBack (Tree.leaf (.number (-1 / 0 : Float))).listing := by
      intro value hvalue
      obtain rfl : value = -1 / 0 := by simpa [hlisting] using hvalue
      exact ⟨by decide +kernel, by decide +kernel, by decide +kernel⟩
    have hlength : (Tree.leaf (.number (-1 / 0 : Float))).listing.length ≤ 1 := by
      rw [hlisting]
      decide
    have hwrite : (Tree.leaf (.number (-1 / 0 : Float))).write = "-inf" := by
      rw [Tree.write, hlisting]
      decide +kernel
    obtain ⟨hback, -⟩ := parse_write_unspaced float_hasNumeralWords .strict _ _ hparse hnumbers
    exact ⟨_, hparse, hnumbers, hlength, hwrite, hwrite ▸ hback hlength⟩

end InfixArith
