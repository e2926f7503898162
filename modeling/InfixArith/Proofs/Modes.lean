import InfixArith.Number.Ieee
import InfixArith.Proofs.Parsing
/-!
# What the two modes make of a text

The modes part at one place only: a word that is no number where a number is due, behind words that
are all read. There the strict mode fails and the lenient one keeps what it has, which is nothing at
all or ends with an operator. Hence the lenient mode finds no value in a text without a strict one,
but for the zero of the empty tree. What goes wrong in either mode is a bad word or a missing
operand, and nothing else.
-/

namespace InfixArith

open Sequence (EndsWithNumber EndsWithOperator)
open Text (isSpace words)

variable {α : Type} [Number α]

/-! ### Words -/

omit [Number α] in
theorem Turn.ending_operator_eq (mode mode' : Mode) (word : List Char) :
    (Turn.operator.ending mode word : Except Error (List (Symbol α))) =
      Turn.operator.ending mode' word := by
  rcases word with _ | ⟨glyph, _ | ⟨second, word⟩⟩ <;> rfl

theorem readWords_of_strict {turn : Turn} {ws : List (List Char)} {symbols : List (Symbol α)}
    (h : readWords .strict turn ws = .ok symbols) (mode : Mode) :
    readWords mode turn ws = .ok symbols := by
  induction ws generalizing turn symbols with
  | nil => exact h
  | cons word ws ih =>
    rw [readWords_cons] at h ⊢
    split at h
    · obtain ⟨rest, hrest, rfl⟩ := map_eq_ok_iff.mp h
      rw [ih hrest]
      rfl
    · cases turn with
      | number => cases h
      | operator => rwa [Turn.ending_operator_eq mode .strict]

/-- Where the strict mode fails, the lenient one keeps what was read before. -/
theorem readWords_refused {used : List (List Char)} {symbols : List (Symbol α)} {word : List Char}
    (hread : readWords .strict .number used = .ok symbols) (hall : symbols.length = used.length)
    (hdue : ¬ EndsWithNumber symbols)
    (hword : (Number.read? (String.ofList word) : Option α) = none)
    (mode : Mode) (rest : List (List Char)) :
    (readWords mode .number (used ++ word :: rest) : Except Error (List (Symbol α))) =
      (mode.refuse (.notANumber (String.ofList word))).map (symbols ++ ·) := by
  rw [readWords_append (readWords_of_strict hread mode) hall, Turn.behind_eq_number_iff.mpr hdue,
    readWords, hword]

theorem readWords_modes (ws : List (List Char)) :
    ((readWords .lenient .number ws : Except Error (List (Symbol α))) =
      readWords .strict .number ws ∧
        ∀ error, (readWords .strict .number ws : Except Error (List (Symbol α))) = .error error →
          ∃ glyph, error = .unknownOperator glyph) ∨
      ∃ (used : List (List Char)) (word : List Char) (rest : List (List Char))
        (symbols : List (Symbol α)),
        ws = used ++ word :: rest ∧ readWords .strict .number used = .ok symbols ∧
          symbols.length = used.length ∧ ¬ EndsWithNumber symbols ∧
          (Number.read? (String.ofList word) : Option α) = none := by
  obtain ⟨used, rest, symbols, rfl, hall, hread, hstop⟩ :=
    exists_readWords_append (α := α) .number ws
  simp only [readWords_append (hread _) hall]
  cases rest with
  | nil => exact .inl ⟨rfl, nofun⟩
  | cons word rest =>
    have hword := hstop word rfl
    cases hturn : Turn.number.behind symbols with
    | number =>
      rw [hturn, Turn.symbol?, Option.map_eq_none_iff] at hword
      exact .inr ⟨used, word, rest, symbols, rfl, hread .strict, hall,
        Turn.behind_eq_number_iff.mp hturn, hword⟩
    | operator =>
      rw [hturn] at hword
      simp only [readWords_cons, hword]
      refine .inl ⟨by rw [Turn.ending_operator_eq .lenient .strict], fun error herror => ?_⟩
      rw [map_eq_error_iff] at herror
      unfold Turn.ending at herror
      split at herror
      · contradiction
      · cases herror
        exact ⟨_, rfl⟩
      · cases herror

/-! ### Texts -/

variable (α) in
/-- A number is due, and this word of the text is none. -/
structure RefusedAt (text before word behind : String) : Prop where
  cutAround : Text.CutAround text.toList before.toList word.toList behind.toList
  exists_lexed : ∃ symbols : List (Symbol α), (lex .strict before).value = .ok symbols ∧
    symbols.length = (words before.toList).length ∧ ¬ EndsWithNumber symbols
  read?_eq_none : (Number.read? word : Option α) = none

theorem RefusedAt.exists_readWords {text before word behind : String}
    (h : RefusedAt α text before word behind) :
    ∃ symbols : List (Symbol α), (lex .strict before).value = .ok symbols ∧
      symbols.length = (words before.toList).length ∧ ¬ EndsWithNumber symbols ∧
      ∀ mode, readWords mode .number (words text.toList) =
        (mode.refuse (.notANumber word)).map (symbols ++ ·) := by
  obtain ⟨hcut, ⟨symbols, hlex, hall, hdue⟩, hword⟩ := h
  refine ⟨symbols, hlex, hall, hdue, fun mode => ?_⟩
  have hunreadable : (Number.read? (String.ofList word.toList) : Option α) = none := by
    rwa [String.ofList_toList]
  rw [value_lex] at hlex
  rw [hcut.words_eq, readWords_refused hlex hall hdue hunreadable, String.ofList_toList]

theorem RefusedAt.parse_strict {text before word behind : String}
    (h : RefusedAt α text before word behind) :
    ((parse .strict text).value : Except Error (Tree α)) = .error (.notANumber word) := by
  obtain ⟨symbols, -, -, -, hread⟩ := h.exists_readWords
  rw [value_parse, hread .strict]
  rfl

/-- The tree of what stands before the word is kept, and has no value unless it is empty. -/
theorem RefusedAt.exists_parse_lenient {text before word behind : String}
    (h : RefusedAt α text before word behind) :
    ∃ t : Tree α, (parse .lenient text).value = .ok t ∧ (lex .strict before).value = .ok t.listing ∧
      (words before.toList = [] → t = .empty ∧ t.evaluate = .ok Number.zero) ∧
      (words before.toList ≠ [] → t.evaluate = .error .missingOperand) := by
  obtain ⟨symbols, hlex, hall, hdue, hread⟩ := h.exists_readWords
  have hparse : (parse .lenient text).value = .ok (Tree.ofSymbols symbols) := by
    rw [value_parse, hread .lenient]
    exact congrArg (Except.ok ∘ Tree.ofSymbols) (List.append_nil symbols)
  refine ⟨Tree.ofSymbols symbols, hparse, ?_, fun hfirst => ?_, fun hlater => ?_⟩
  · rwa [Tree.listing_eq_symbols, Tree.symbols_ofSymbols]
  · rw [hfirst, List.length_nil, List.length_eq_zero_iff] at hall
    subst hall
    exact ⟨rfl, rfl⟩
  · have hne : symbols ≠ [] := by
      rintro rfl
      exact hlater (List.length_eq_zero_iff.mp hall.symm)
    exact Tree.evaluate_ofSymbols_of_endsWithOperator
      ((Sequence.endsWithNumber_or_endsWithOperator hne).resolve_left hdue)

theorem parse_modes (text : String) :
    (((parse .lenient text).value : Except Error (Tree α)) = (parse .strict text).value ∧
        ∀ error, ((parse .strict text).value : Except Error (Tree α)) = .error error →
          ∃ glyph, error = .unknownOperator glyph) ∨
      ∃ before word behind, RefusedAt α text before word behind := by
  obtain ⟨hsame, herrors⟩ | ⟨used, word, rest, symbols, hwords, hread, hall, hdue, hword⟩ :=
    readWords_modes (α := α) (words text.toList)
  · refine .inl ⟨by rw [value_parse, value_parse, hsame], fun error herror => herrors error ?_⟩
    rwa [value_parse, map_eq_error_iff] at herror
  · obtain ⟨before, behind, hcut, rfl⟩ := Text.exists_cutAround_of_words hwords
    refine .inr ⟨.ofList before, .ofList word, .ofList behind, ?_, ⟨symbols, ?_, ?_, hdue⟩, hword⟩
    · simpa only [String.toList_ofList] using hcut
    · rwa [value_lex, String.toList_ofList]
    · rwa [String.toList_ofList]

theorem error_of_parse {mode : Mode} {text : String} {error : Error}
    (h : ((parse mode text).value : Except Error (Tree α)) = .error error) :
    (∃ glyph, error = .unknownOperator glyph) ∨ ∃ word, error = .notANumber word := by
  obtain ⟨hsame, herrors⟩ | ⟨before, word, behind, hrefused⟩ := parse_modes (α := α) text
  · cases mode with
    | strict => exact .inl (herrors error h)
    | lenient => exact .inl (herrors error (hsame.symm.trans h))
  · cases mode with
    | strict => exact .inr ⟨word, Except.error.inj (h.symm.trans hrefused.parse_strict)⟩
    | lenient =>
      obtain ⟨t, hparse, -⟩ := hrefused.exists_parse_lenient
      cases h.symm.trans hparse

theorem error_of_evaluateIn {mode : Mode} {text : String} {error : Error}
    (h : ((evaluateIn mode text).value : Except Error α) = .error error) :
    error = .missingOperand ∨ (∃ glyph, error = .unknownOperator glyph) ∨
      ∃ word, error = .notANumber word := by
  obtain hparse | ⟨t, hparse, hevaluate⟩ :=
    bind_eq_error_iff.mp ((value_evaluateIn mode text).symm.trans h)
  · exact .inr (error_of_parse hparse)
  · exact .inl (Tree.eq_missingOperand_of_evaluate hevaluate)

/-- A value in the lenient mode only is the zero of the empty tree. -/
theorem eq_zero_of_evaluateIn_lenient {text : String} {error : Error} {value : α}
    (hstrict : ((evaluateIn .strict text).value : Except Error α) = .error error)
    (hlenient : (evaluateIn .lenient text).value = .ok value) :
    ((parse .lenient text).value : Except Error (Tree α)) = .ok .empty ∧ value = Number.zero := by
  obtain ⟨t, hparse, hvalue⟩ :=
    bind_eq_ok_iff.mp ((value_evaluateIn .lenient text).symm.trans hlenient)
  obtain ⟨hsame, -⟩ | ⟨before, word, behind, hrefused⟩ := parse_modes (α := α) text
  · rw [value_evaluateIn, ← hsame, hparse] at hstrict
    cases hvalue.symm.trans hstrict
  · obtain ⟨t', hparse', -, hfirst, hlater⟩ := hrefused.exists_parse_lenient
    obtain rfl : t' = t := Except.ok.inj (hparse'.symm.trans hparse)
    by_cases hbefore : words before.toList = []
    · obtain ⟨rfl, hzero⟩ := hfirst hbefore
      exact ⟨hparse, Except.ok.inj (hvalue.symm.trans hzero)⟩
    · cases hvalue.symm.trans (hlater hbefore)

/-- The lenient mode differs where a word is refused: it keeps what stands before. What is parsed
has a value unless it ends with an operator. -/
theorem parse_strict_lenient (text : String) :
    (∀ t : Tree α, (parse .strict text).value = .ok t → (parse .lenient text).value = .ok t) ∧
      (∀ glyph,
        ((parse .strict text).value : Except Error (Tree α)) = .error (.unknownOperator glyph) →
        ((parse .lenient text).value : Except Error (Tree α)) = .error (.unknownOperator glyph)) ∧
      (∀ word, ((parse .strict text).value : Except Error (Tree α)) = .error (.notANumber word) ↔
        ∃ before behind, RefusedAt α text before word behind) ∧
      (∀ before word behind, RefusedAt α text before word behind →
        ∃ t : Tree α, (parse .lenient text).value = .ok t ∧
          (lex .strict before).value = .ok t.listing ∧
          (words before.toList = [] → t = .empty ∧ t.evaluate = .ok Number.zero) ∧
          (words before.toList ≠ [] → t.evaluate = .error .missingOperand)) ∧
      (∀ (error : Error) (value : α),
        ((evaluateIn .strict text).value : Except Error α) = .error error →
        (evaluateIn .lenient text).value = .ok value →
          ((parse .lenient text).value : Except Error (Tree α)) = .ok .empty ∧
          value = Number.zero) ∧
      (∀ (mode : Mode) (t : Tree α), (parse mode text).value = .ok t →
        (lex mode text).value = .ok t.listing ∧
        (t.evaluate = .error .missingOperand ↔ EndsWithOperator t.listing) ∧
        ((∃ value, t.evaluate = .ok value) ↔ ¬ EndsWithOperator t.listing)) ∧
      ∀ (mode : Mode) (error : Error),
        ((evaluateIn mode text).value : Except Error α) = .error error →
        error ≠ .operandIsOperator ∧ error ≠ .numberIsNoOperator := by
  refine ⟨fun t hstrict => ?_, fun glyph hstrict => ?_, fun word => ⟨fun hstrict => ?_, ?_⟩,
    fun before word behind => RefusedAt.exists_parse_lenient,
    fun error value => eq_zero_of_evaluateIn_lenient,
    fun mode t hparse => ⟨(lex_of_parse hparse).1, ?_⟩, fun mode error herror => ?_⟩
  · obtain ⟨hsame, -⟩ | ⟨before, word, behind, hrefused⟩ := parse_modes (α := α) text
    · exact hsame.trans hstrict
    · cases hstrict.symm.trans hrefused.parse_strict
  · obtain ⟨hsame, -⟩ | ⟨before, word, behind, hrefused⟩ := parse_modes (α := α) text
    · exact hsame.trans hstrict
    · cases hstrict.symm.trans hrefused.parse_strict
  · obtain ⟨-, herrors⟩ | ⟨before, word', behind, hrefused⟩ := parse_modes (α := α) text
    · obtain ⟨glyph, hglyph⟩ := herrors _ hstrict
      cases hglyph
    · cases hstrict.symm.trans hrefused.parse_strict
      exact ⟨before, behind, hrefused⟩
  · rintro ⟨before, behind, hrefused⟩
    exact hrefused.parse_strict
  · obtain ⟨hmissing, hvalue⟩ := evaluate_of_parse hparse
    by_cases hend : EndsWithOperator t.listing
    · simp [hend, hmissing hend]
    · obtain ⟨value, hok⟩ := hvalue hend
      simp [hend, hok]
  · obtain rfl | ⟨glyph, rfl⟩ | ⟨word, rfl⟩ := error_of_evaluateIn herror <;> exact ⟨nofun, nofun⟩

/-- A word of two bytes where a number is due, behind an operator and at the front. -/
theorem parse_strict_lenient_refused :
    RefusedAt Float "7 - 2 *  é + 3" "7 - 2 *  " "é" " + 3" ∧
      ((parse .strict "7 - 2 *  é + 3").value : Except Error (Tree Float)) =
        .error (.notANumber "é") ∧
      (∃ t : Tree Float, (parse .lenient "7 - 2 *  é + 3").value = .ok t ∧
        t.listing = [.number 7, .operator .subtract, .number 2, .operator .multiply] ∧
        t.evaluate = .error .missingOperand) ∧
      RefusedAt Float " é" " " "é" "" ∧
      ((parse .lenient " é").value : Except Error (Tree Float)) = .ok .empty := by
  have hlex : (lex .strict "7 - 2 *  ").value =
      .ok [.number 7, .operator .subtract, .number 2, .operator (α := Float) .multiply] :=
    (value_lex _ _).trans (by decide +kernel)
  have hrefused : RefusedAt Float "7 - 2 *  é + 3" "7 - 2 *  " "é" " + 3" :=
    ⟨⟨by decide, by decide, by simp [isSpace], by simp [isSpace], by simp [isSpace]⟩,
      ⟨_, hlex, by decide, by simp [EndsWithNumber]⟩, by decide +kernel⟩
  have hfirst : RefusedAt Float " é" " " "é" "" :=
    ⟨⟨by decide, by decide, by simp [isSpace], by simp [isSpace], by simp [isSpace]⟩,
      ⟨[], (value_lex _ _).trans (by decide), by decide, by simp [EndsWithNumber]⟩,
      by decide +kernel⟩
  obtain ⟨-, -, hstrict, hlenient, -⟩ := parse_strict_lenient (α := Float) "7 - 2 *  é + 3"
  obtain ⟨t, hparse, hlisting, -, hmissing⟩ := hlenient _ _ _ hrefused
  obtain ⟨-, -, -, hlenientFirst, -⟩ := parse_strict_lenient (α := Float) " é"
  obtain ⟨t', hparse', -, hempty, -⟩ := hlenientFirst _ _ _ hfirst
  obtain ⟨rfl, -⟩ := hempty (by decide)
  exact ⟨hrefused, (hstrict _).mpr ⟨_, _, hrefused⟩,
    ⟨t, hparse, Except.ok.inj (hlisting.symm.trans hlex), hmissing (by decide)⟩, hfirst, hparse'⟩

end InfixArith
