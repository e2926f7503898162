import InfixArith.Proofs.Modes
import InfixArith.Proofs.Offsets
import InfixArith.Proofs.Pending
/-!
# What the records say about reading

A text that is not read leaves no record. One that is read leaves a last record with the number of
its symbols, and before it at most a notice of why reading ended where a number was due: the words
ran out behind an operator, or the lenient mode met a word that is no number. The notice quotes the
text from that word on, because the lexer keeps a cut of the text whose first part is read to its
last word.
-/

namespace InfixArith

open Sequence (EndsWithNumber EndsWithOperator)
open Text (Cursor CutAround isBlank isSpace trim trimEnd words)

namespace Text

theorem isBlank_of_isSpace {c : Char} (h : isSpace c = true) : isBlank c = true := by
  rw [Text.isSpace_iff.mp h]
  decide

theorem trim_spaces_append {spaces : List Char} (h : ∀ c ∈ spaces, isSpace c = true)
    (chars : List Char) :
    trim (spaces ++ chars) = trim chars := by
  rw [trim, trim, List.dropWhile_append_of_pos fun c hc => isBlank_of_isSpace (h c hc)]

namespace Cursor

/-- The cursor is behind this part, which ends with a space unless nothing is left. -/
structure Follows (cursor : Cursor) (chars before : List Char) : Prop where
  chars_eq : chars = before ++ cursor.rest
  isSpace_of_mem_getLast? : cursor.rest ≠ [] → ∀ c ∈ before.getLast?, isSpace c = true

theorem Follows.words_eq {cursor : Cursor} {chars before : List Char}
    (h : cursor.Follows chars before) :
    words chars = words before ++ words cursor.rest := by
  rw [h.chars_eq]
  by_cases hrest : cursor.rest = []
  · simp [hrest]
  · exact words_append_of_getLast? (h.isSpace_of_mem_getLast? hrest) cursor.rest

theorem Finds.cutAround {cursor stop : Cursor} {spaces word chars before : List Char}
    (h : cursor.Finds spaces word stop) (hfollows : cursor.Follows chars before) :
    CutAround chars (before ++ spaces) word stop.rest := by
  refine ⟨?_, h.word_ne_nil, h.isSpace_of_mem_word, fun c hc => ?_, h.isSpace_of_mem_head?⟩
  · rw [hfollows.chars_eq, h.rest_eq, List.append_assoc]
  · rw [List.getLast?_append] at hc
    cases hspaces : spaces.getLast? with
    | none =>
      rw [hspaces] at hc
      exact hfollows.isSpace_of_mem_getLast? h.rest_ne_nil c hc
    | some space =>
      rw [hspaces] at hc
      cases hc
      exact h.isSpace_of_mem_spaces c (List.mem_of_getLast? hspaces)

theorem Finds.exists_follows_advance {cursor stop : Cursor} {spaces word chars before : List Char}
    (h : cursor.Finds spaces word stop) (hfollows : cursor.Follows chars before) :
    ∃ before', stop.advance.Follows chars before' ∧ words before' = words before ++ [word] := by
  have hcut := h.cutAround hfollows
  have hspace : ∀ c ∈ stop.rest.take 1, isSpace c = true := by
    intro c hc
    rw [List.take_one, Option.mem_toList] at hc
    exact h.isSpace_of_mem_head? c hc
  refine ⟨before ++ spaces ++ (word ++ stop.rest.take 1), ⟨?_, fun hrest c hc => ?_⟩, ?_⟩
  · rw [advance, ← List.drop_one, List.append_assoc, List.append_assoc word, List.take_append_drop]
    exact hcut.chars_eq
  · apply hspace c
    cases hstop : stop.rest with
    | nil => simp [advance, hstop] at hrest
    | cons space behind => simpa [hstop, eq_comm] using hc
  · have hinner : CutAround (before ++ spaces ++ (word ++ stop.rest.take 1)) (before ++ spaces) word
        (stop.rest.take 1) :=
      ⟨rfl, hcut.word_ne_nil, hcut.isSpace_of_mem_word, hcut.isSpace_of_mem_getLast?,
        fun c hc => hspace c (List.mem_of_mem_head? hc)⟩
    rw [hinner.words_eq, words_append_spaces h.isSpace_of_mem_spaces, words_of_spaces hspace]

end Cursor

end Text

variable {α : Type} [Number α]

namespace Text.Cursor

theorem exists_finds_of_number?_error {cursor : Cursor} {error : Error}
    (h : cursor.number? α = .error error) :
    ∃ spaces word stop, cursor.Finds spaces word stop ∧ error = .notANumber (String.ofList word) ∧
      (Number.read? (String.ofList word) : Option α) = none := by
  unfold number? at h
  split at h
  · cases h
  next word stop hword =>
    obtain ⟨spaces, hfinds⟩ := exists_finds_of_word? hword
    split at h
    · cases h
    next hunread =>
      cases h
      exact ⟨spaces, word, stop, hfinds, rfl, hunread⟩

theorem words_rest_of_number?_none {cursor : Cursor} (h : cursor.number? α = .ok none) :
    words cursor.rest = [] := by
  unfold number? at h
  split at h
  next hword => exact words_rest_of_word?_eq_none hword
  · split at h <;> cases h

end Text.Cursor

namespace Lexer

/-- The words before the cursor are read, and a number is due. -/
structure HasRead (lexer : Lexer α) (text : String) (before : List Char) : Prop where
  follows : lexer.cursor.Follows text.toList before
  readWords_before : readWords .strict .number (words before) = .ok lexer.latest.reverse
  length_latest : lexer.latest.length = (words before).length
  not_endsWithNumber : ¬ EndsWithNumber lexer.latest.reverse

theorem hasRead_start (text : String) : (start text : Lexer α).HasRead text [] :=
  ⟨⟨rfl, nofun⟩, rfl, rfl, by simp [start, EndsWithNumber]⟩

theorem HasRead.reading_eq {lexer : Lexer α} {text : String} {before : List Char}
    (h : lexer.HasRead text before)
    (mode : Mode) : lexer.reading mode = (lex mode text).value := by
  have hlength : lexer.latest.reverse.length = (words before).length := by
    rw [List.length_reverse, h.length_latest]
  rw [value_lex, h.follows.words_eq,
    readWords_append (readWords_of_strict h.readWords_before mode) hlength,
    Turn.behind_eq_number_iff.mpr h.not_endsWithNumber, reading]

theorem HasRead.step {lexer next : Lexer α} {mode : Mode} {text : String} {before : List Char}
    (h : lexer.HasRead text before) (hstep : lexer.step mode text = .more next) :
    ∃ before', next.HasRead text before' := by
  obtain ⟨value, numberEnd, op, operatorEnd, hnumber, hoperator, rfl⟩ := step_eq_more_iff.mp hstep
  obtain ⟨spaces, word, hfinds, hread⟩ := Cursor.exists_finds_of_number? hnumber
  obtain ⟨spaces', glyph, hfinds', hglyph⟩ := Cursor.exists_finds_of_operator? hoperator
  obtain ⟨between, hfollows, hbetween⟩ := hfinds.exists_follows_advance h.follows
  obtain ⟨before', hfollows', hbefore'⟩ := hfinds'.exists_follows_advance hfollows
  have hwords : words before' = words before ++ [word, [glyph]] := by
    rw [hbefore', hbetween, List.append_assoc]
    rfl
  have hpair : readWords .strict .number [word, [glyph]] = .ok [.number value, .operator op] := by
    simp [readWords, hread, hglyph, Except.map]
  have hlength : lexer.latest.reverse.length = (words before).length := by
    rw [List.length_reverse, h.length_latest]
  refine ⟨before', hfollows', ?_, ?_, ?_⟩
  · rw [hwords, readWords_append h.readWords_before hlength,
      Turn.behind_eq_number_iff.mpr h.not_endsWithNumber, hpair]
    simp [Except.map]
  · simp [hwords, h.length_latest]
  · simp [EndsWithNumber]

end Lexer

/-- Why reading ended without an error, and the notice of it. -/
inductive Ending (mode : Mode) (text : String) (symbols : List (Symbol α)) :
    Option (Record α) → Prop
  | silent (hend : ¬ EndsWithOperator symbols) (hstrict : (lex .strict text).value = .ok symbols) :
      Ending mode text symbols none
  | numberExpected (hend : EndsWithOperator symbols)
      (hstrict : (lex .strict text).value = .ok symbols)
      (hall : symbols.length = (words text.toList).length) :
      Ending mode text symbols (some (.numberExpected text))
  | discarded {before word behind rest : String} (hmode : mode = .lenient)
      (hrefused : RefusedAt α text before word behind)
      (hread : (lex .strict before).value = .ok symbols)
      (hrest : trim rest.toList = trim (word ++ behind).toList) :
      Ending mode text symbols (some (.discarded (.notANumber word) rest))

namespace Lexer

theorem HasRead.ending_of_exhausted {lexer : Lexer α} {text : String} {before : List Char}
    (h : lexer.HasRead text before) (mode : Mode) (hnumber : lexer.cursor.number? α = .ok none) :
    Ending mode text lexer.latest.reverse (if lexer.latest.isEmpty then none
      else some (.numberExpected text)) := by
  have hrest := Cursor.words_rest_of_number?_none hnumber
  have hstrict : (lex .strict text).value = .ok lexer.latest.reverse := by
    rw [← h.reading_eq .strict, reading, hrest]
    simp [readWords, Except.map]
  by_cases hempty : lexer.latest = []
  · rw [hempty] at hstrict ⊢
    exact .silent (by simp [EndsWithOperator]) hstrict
  · have hend : EndsWithOperator lexer.latest.reverse :=
      (Sequence.endsWithNumber_or_endsWithOperator (by simpa using hempty)).resolve_left
        h.not_endsWithNumber
    have hall : lexer.latest.reverse.length = (words text.toList).length := by
      rw [List.length_reverse, h.length_latest, h.follows.words_eq, hrest, List.append_nil]
    have hending : Ending mode text lexer.latest.reverse _ := .numberExpected hend hstrict hall
    simpa [hempty] using hending

theorem HasRead.ending_of_refused {lexer : Lexer α} {text : String} {before : List Char}
    {error : Error}
    (h : lexer.HasRead text before) (hnumber : lexer.cursor.number? α = .error error) :
    Ending .lenient text lexer.latest.reverse
      (some (.discarded error (String.ofList lexer.cursor.rest))) := by
  obtain ⟨spaces, word, stop, hfinds, rfl, hunread⟩ := Cursor.exists_finds_of_number?_error hnumber
  have hcut := hfinds.cutAround h.follows
  have hwords : words (before ++ spaces) = words before :=
    Text.words_append_spaces hfinds.isSpace_of_mem_spaces before
  have hread : (lex .strict (String.ofList (before ++ spaces))).value =
      .ok lexer.latest.reverse := by
    rw [value_lex, String.toList_ofList, hwords, h.readWords_before]
  have hrefused :
      RefusedAt α text (String.ofList (before ++ spaces)) (String.ofList word)
        (String.ofList stop.rest) := by
    refine ⟨by simpa using hcut, ⟨lexer.latest.reverse, hread, ?_, h.not_endsWithNumber⟩, hunread⟩
    rw [String.toList_ofList, hwords, List.length_reverse, h.length_latest]
  refine .discarded rfl hrefused hread ?_
  rw [String.toList_ofList, hfinds.rest_eq, Text.trim_spaces_append hfinds.isSpace_of_mem_spaces]
  simp

theorem HasRead.ending_of_done {lexer : Lexer α} {mode : Mode} {text : String} {before : List Char}
    {latest : List (Symbol α)} {notice : Option (Record α)} (h : lexer.HasRead text before)
    (hstep : lexer.step mode text = .done latest notice) :
    Ending mode text latest.reverse notice := by
  unfold Lexer.step at hstep
  split at hstep
  next hnumber =>
    cases hstep
    exact h.ending_of_exhausted mode hnumber
  next error hnumber =>
    split at hstep
    · cases hstep
    · cases hstep
      exact h.ending_of_refused hnumber
  next value numberEnd hnumber =>
    dsimp only at hstep
    split at hstep
    · cases hstep
    next hoperator =>
      cases hstep
      have hsame : lexer.step .strict text = .done (.number value :: lexer.latest) none := by
        simp [Lexer.step, hnumber, hoperator]
      refine .silent (by simp [EndsWithOperator]) ?_
      rw [← h.reading_eq .strict, ← reading_step .strict text, hsame, Outcome.reading]
    · cases hstep

/-- A run that fails leaves no record, any other tells how it ended. -/
theorem HasRead.records_run {lexer : Lexer α} {text : String} {before : List Char}
    (h : lexer.HasRead text before) (mode : Mode) :
    (∀ error, (lexer.run mode text).value = .error error → (lexer.run mode text).records = []) ∧
      ∀ symbols, (lexer.run mode text).value = .ok symbols → ∃ notice,
        (lexer.run mode text).records = notice.toList ++ [.lexed symbols.length text] ∧
          Ending mode text symbols notice := by
  fun_induction run mode text lexer generalizing before with
  | case1 lexer next hstep ih =>
    obtain ⟨before', h'⟩ := h.step hstep
    exact ih h'
  | case2 lexer latest notice hstep =>
    refine ⟨fun error herror => ?_, fun symbols hsymbols => ⟨notice, ?_, ?_⟩⟩
    · cases herror
    · cases hsymbols
      rw [List.length_reverse]
    · cases hsymbols
      exact h.ending_of_done hstep
  | case3 lexer error hstep =>
    refine ⟨fun _ _ => rfl, fun symbols hsymbols => ?_⟩
    cases hsymbols

end Lexer

/-! ### What the records tell -/

theorem RefusedAt.lex_strict {text before word behind : String}
    (h : RefusedAt α text before word behind) :
    ((lex .strict text).value : Except Error (List (Symbol α))) = .error (.notANumber word) := by
  obtain ⟨symbols, -, -, -, hread⟩ := h.exists_readWords
  rw [value_lex, hread .strict]
  rfl

theorem exists_refusedAt_of_lex {text word : String}
    (h : ((lex .strict text).value : Except Error (List (Symbol α))) = .error (.notANumber word)) :
    ∃ before behind, RefusedAt α text before word behind := by
  obtain ⟨-, herrors⟩ | ⟨before, word', behind, hrefused⟩ := parse_modes (α := α) text
  · rw [value_lex] at h
    obtain ⟨glyph, hglyph⟩ := herrors (.notANumber word) (by rw [value_parse, h]; rfl)
    cases hglyph
  · cases hrefused.lex_strict.symm.trans h
    exact ⟨before, behind, hrefused⟩

theorem RefusedAt.unique {text before word behind before' word' behind' : String}
    (h : RefusedAt α text before word behind) (h' : RefusedAt α text before' word' behind') :
    before = before' ∧ word = word' ∧ behind = behind' := by
  obtain ⟨symbols, -, hlength, -, hread⟩ := h.exists_readWords
  obtain ⟨symbols', -, hlength', -, hread'⟩ := h'.exists_readWords
  have hsymbols : symbols = symbols' := by
    have hlenient := (hread .lenient).symm.trans (hread' .lenient)
    simpa [Mode.refuse, Except.map] using hlenient
  have hcut := h.cutAround.unique h'.cutAround (by rw [← hlength, ← hlength', hsymbols])
  simpa [String.toList_inj] using hcut

theorem RefusedAt.of_lex {text before word behind : String}
    (h : RefusedAt α text before word behind)
    {symbols : List (Symbol α)} (hread : (lex .strict before).value = .ok symbols) :
    ¬ EndsWithNumber symbols ∧ symbols.length < (words text.toList).length := by
  obtain ⟨symbols', hread', hlength, hdue, -⟩ := h.exists_readWords
  obtain rfl : symbols' = symbols := Except.ok.inj (hread'.symm.trans hread)
  refine ⟨hdue, ?_⟩
  rw [h.cutAround.words_eq, List.length_append, List.length_cons, hlength]
  omega

variable {mode : Mode} {text : String} {symbols : List (Symbol α)} {notice : Option (Record α)}

theorem Ending.discarded_iff (h : Ending mode text symbols notice) :
    (∃ error rest, notice = some (.discarded error rest)) ↔
      mode = .lenient ∧
        ∃ word, ((lex .strict text).value : Except Error (List (Symbol α))) =
          .error (.notANumber word) := by
  cases h with
  | silent hend hstrict => simp [hstrict]
  | numberExpected hend hstrict hall => simp [hstrict]
  | discarded hmode hrefused hread hrest => simp [hmode, hrefused.lex_strict]

theorem Ending.discarded_of_refusedAt (h : Ending mode text symbols notice)
    {before word behind : String} (hrefused : RefusedAt α text before word behind) :
    ∃ rest, notice = some (.discarded (.notANumber word) rest) ∧
      trim rest.toList = trim (word ++ behind).toList := by
  cases h with
  | silent hend hstrict => cases hrefused.lex_strict.symm.trans hstrict
  | numberExpected hend hstrict hall => cases hrefused.lex_strict.symm.trans hstrict
  | discarded hmode hrefused' hread hrest =>
    obtain ⟨rfl, rfl, rfl⟩ := hrefused.unique hrefused'
    exact ⟨_, rfl, hrest⟩

theorem Ending.numberExpected_iff (h : Ending mode text symbols notice) :
    notice = some (.numberExpected text) ↔
      EndsWithOperator symbols ∧ symbols.length = (words text.toList).length := by
  cases h with
  | silent hend hstrict => simp [hend]
  | numberExpected hend hstrict hall => simp [hend, hall]
  | discarded hmode hrefused hread hrest =>
    obtain ⟨-, hlength⟩ := hrefused.of_lex hread
    simp only [Option.some.injEq, reduceCtorEq, false_iff, not_and]
    omega

theorem Ending.endsWithOperator_iff (h : Ending mode text symbols notice) :
    EndsWithOperator symbols ↔ symbols ≠ [] ∧ notice ≠ none := by
  have hne : EndsWithOperator symbols → symbols ≠ [] := by
    rintro ⟨op, hop⟩ rfl
    cases hop
  cases h with
  | silent hend hstrict => simp [hend]
  | numberExpected hend hstrict hall => simp [hend, hne hend]
  | discarded hmode hrefused hread hrest =>
    obtain ⟨hdue, -⟩ := hrefused.of_lex hread
    refine ⟨fun hend => ⟨hne hend, nofun⟩, fun hsome => ?_⟩
    exact (Sequence.endsWithNumber_or_endsWithOperator hsome.1).resolve_left hdue

/-! ### How the notice is shown -/

theorem Ending.line_of_mem (h : Ending mode text symbols notice) : ∀ line ∈ notice.map Record.line,
    line.1 = .warn ∨
      line = (.debug, "expected number after " ++ Record.quoted (trimEnd text.toList)) := by
  intro line hline
  cases h with
  | silent hend hstrict => cases hline
  | numberExpected hend hstrict hall =>
    cases hline
    exact .inr rfl
  | discarded hmode hrefused hread hrest =>
    cases hline
    exact .inl rfl

theorem Ending.warn_iff (h : Ending mode text symbols notice) :
    (∃ message, notice.map Record.line = some (.warn, message)) ↔
      ∃ error rest, notice = some (.discarded error rest) := by
  cases h with
  | silent hend hstrict => simp
  | numberExpected hend hstrict hall =>
    simp only [Option.map_some, Record.line, Record.level, Option.some.injEq, Prod.mk.injEq,
      reduceCtorEq, false_and, exists_false]
  | discarded hmode hrefused hread hrest => exact iff_of_true ⟨_, rfl⟩ ⟨_, _, rfl⟩

theorem Ending.debug_iff (h : Ending mode text symbols notice) :
    notice.map Record.line =
        some (.debug, "expected number after " ++ Record.quoted (trimEnd text.toList)) ↔
      notice = some (.numberExpected text) := by
  cases h with
  | silent hend hstrict => simp
  | numberExpected hend hstrict hall => exact iff_of_true rfl rfl
  | discarded hmode hrefused hread hrest =>
    simp only [Option.map_some, Record.line, Record.level, Option.some.injEq, Prod.mk.injEq,
      reduceCtorEq, false_and]

/-! ### Parsing -/

theorem records_parse_of_error {error : Error}
    (h : ((parse mode text).value : Except Error (Tree α)) = .error error) :
    (parse (α := α) mode text).records = [] := by
  unfold parse at h ⊢
  split
  · rfl
  next hempty =>
    rw [if_neg hempty] at h
    dsimp only at h ⊢
    cases hlex : (lex (α := α) mode text).value with
    | error error => exact ((Lexer.hasRead_start text).records_run mode).1 error hlex
    | ok symbols =>
      rw [hlex] at h
      cases h

theorem records_parse_of_lex (htext : text ≠ "") (h : (lex mode text).value = .ok symbols) :
    (parse mode text).records = (lex mode text).records ++ Tree.empty.trace symbols := by
  unfold parse
  rw [if_neg (by simpa using htext)]
  dsimp only
  rw [h]
  dsimp only
  rw [Tree.records_insertAll, List.reverse_reverse]

/-- Reading that succeeds leaves the number of symbols, behind at most one notice of how it ended.
Building the tree adds its own records. -/
theorem records_of_reading (mode : Mode) (text : String) :
    (∀ error, ((lex mode text).value : Except Error (List (Symbol α))) = .error error →
        (lex (α := α) mode text).records = []) ∧
      (∀ symbols : List (Symbol α), (lex mode text).value = .ok symbols →
        ∃ notice : Option (Level × String),
          (lex (α := α) mode text).records.map Record.line = notice.toList ++
            [(.debug, "lexed " ++ toString symbols.length ++ " symbols from " ++
              Record.quoted text.toList)] ∧
          (∀ line ∈ notice, line.1 = .warn ∨
            line = (.debug, "expected number after " ++ Record.quoted (trimEnd text.toList))) ∧
          ((∃ message, notice = some (.warn, message)) ↔ mode = .lenient ∧
            ∃ word, ((lex .strict text).value : Except Error (List (Symbol α))) =
              .error (.notANumber word)) ∧
          (∀ word, ((lex .strict text).value : Except Error (List (Symbol α))) =
              .error (.notANumber word) →
            ∃ before behind, RefusedAt α text before word behind) ∧
          (∀ before word behind, RefusedAt α text before word behind →
            notice = some (.warn, (Error.notANumber word).message ++ ", discarding " ++
              Record.quoted (trim (word ++ behind).toList))) ∧
          (notice = some (.debug, "expected number after " ++ Record.quoted (trimEnd text.toList)) ↔
            EndsWithOperator symbols ∧ symbols.length = (words text.toList).length) ∧
          (EndsWithOperator symbols ↔ symbols ≠ [] ∧ notice ≠ none)) ∧
      (parse (α := α) mode "").records = [] ∧
      (∀ error, ((parse mode text).value : Except Error (Tree α)) = .error error →
        (parse (α := α) mode text).records = []) ∧
      (∀ symbols : List (Symbol α), text ≠ "" → (lex mode text).value = .ok symbols →
        (parse mode text).records = (lex mode text).records ++ Tree.empty.trace symbols) ∧
      (evaluateIn (α := α) mode text).records = (parse (α := α) mode text).records := by
  obtain ⟨hfailed, hended⟩ := (Lexer.hasRead_start (α := α) text).records_run mode
  refine ⟨hfailed, fun symbols hsymbols => ?_, rfl,
    fun error herror => records_parse_of_error herror,
    fun symbols htext hsymbols => records_parse_of_lex htext hsymbols, rfl⟩
  obtain ⟨notice, hrecords, hending⟩ := hended symbols hsymbols
  refine ⟨notice.map Record.line, ?_, hending.line_of_mem,
    hending.warn_iff.trans hending.discarded_iff, fun word => exists_refusedAt_of_lex,
    fun before word behind hrefused => ?_,
    hending.debug_iff.trans hending.numberExpected_iff, ?_⟩
  · rw [lex, hrecords]
    cases notice <;> rfl
  · obtain ⟨rest, rfl, hrest⟩ := hending.discarded_of_refusedAt hrefused
    rw [← hrest]
    rfl
  · rw [hending.endsWithOperator_iff]
    simp

/-- A text that ends before a refused word, and one that ends behind an operator. -/
theorem records_of_reading_refused :
    RefusedAt Float "7 -  é + 3\t" "7 -  " "é" " + 3\t" ∧
      (lex (α := Float) .lenient "7 -  é + 3\t").records.map Record.line =
        [(.warn, "é is not a number, discarding \"é + 3\""),
          (.debug, "lexed 2 symbols from \"7 -  é + 3\t\"")] ∧
      (lex (α := Float) .strict "7 -  é + 3\t").records = [] ∧
      (lex (α := Float) .strict " 7 - ").records.map Record.line =
        [(.debug, "expected number after \" 7 -\""),
          (.debug, "lexed 2 symbols from \" 7 - \"")] := by
  have hread : (lex .lenient "7 -  é + 3\t").value =
      .ok [.number 7, .operator (α := Float) .subtract] :=
    (value_lex _ _).trans (by decide +kernel)
  have hbefore : (lex .strict "7 -  ").value = .ok [.number 7, .operator (α := Float) .subtract] :=
    (value_lex _ _).trans (by decide +kernel)
  have hrefused : RefusedAt Float "7 -  é + 3\t" "7 -  " "é" " + 3\t" :=
    ⟨⟨by decide, by decide, by simp [isSpace], by simp [isSpace], by simp [isSpace]⟩,
      ⟨_, hbefore, by decide, by simp [EndsWithNumber]⟩, by decide +kernel⟩
  have hlast : (lex .strict " 7 - ").value = .ok [.number 7, .operator (α := Float) .subtract] :=
    (value_lex _ _).trans (by decide +kernel)
  obtain ⟨-, hlenient, -⟩ := records_of_reading (α := Float) .lenient "7 -  é + 3\t"
  obtain ⟨notice, hlines, -, -, -, hwarn, -⟩ := hlenient _ hread
  obtain ⟨hstrict, -⟩ := records_of_reading (α := Float) .strict "7 -  é + 3\t"
  obtain ⟨-, hended, -⟩ := records_of_reading (α := Float) .strict " 7 - "
  obtain ⟨notice', hlines', -, -, -, -, hexpected, -⟩ := hended _ hlast
  rw [hwarn _ _ _ hrefused] at hlines
  rw [hexpected.mpr ⟨⟨_, rfl⟩, by decide⟩] at hlines'
  exact ⟨hrefused, hlines.trans (by decide), hstrict _ hrefused.lex_strict,
    hlines'.trans (by decide)⟩

end InfixArith
