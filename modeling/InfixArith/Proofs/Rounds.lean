import InfixArith.Proofs.Lookup
import InfixArith.Proofs.Notices
/-!
# The rounds of the lexer

In each of its rounds the lexer looks up a number and, one byte behind it, an operator; one byte
behind that the next round begins. The byte left out is the space that ends a word, or there is none
and the offset is one past the end of the text. So every lookup begins where a character does,
unless the text has ended, and it finds the word that comes next. A round uses up two words, hence
there are at most half as many rounds as words, and the last one, which finds less.
-/

namespace InfixArith

open Text (Cursor byteLength words)

namespace Text

/-- The offset is the start, one behind the end, or one behind a space. -/
def IsRestart (text : String) (offset : Nat) : Prop :=
  offset = 0 ∨ offset = text.utf8ByteSize + 1 ∨
    ∃ before behind : String, text = before ++ " " ++ behind ∧ (before ++ " ").utf8ByteSize = offset

theorem IsRestart.le {text : String} {offset : Nat} (h : IsRestart text offset) :
    offset ≤ text.utf8ByteSize + 1 := by
  obtain rfl | rfl | ⟨before, behind, rfl, rfl⟩ := h
  · exact Nat.zero_le _
  · exact Nat.le_refl _
  · have hsize : (before ++ " " ++ behind).utf8ByteSize = _ := String.utf8ByteSize_append
    omega

theorem IsRestart.isValid {text : String} {offset : Nat} (h : IsRestart text offset)
    (hlt : offset < text.utf8ByteSize) : (⟨offset⟩ : String.Pos.Raw).IsValid text := by
  rw [isValid_iff]
  obtain rfl | rfl | ⟨before, behind, htext, hbefore⟩ := h
  · exact ⟨"", text, by rw [String.empty_append], String.utf8ByteSize_empty⟩
  · omega
  · exact ⟨before ++ " ", behind, htext, hbefore⟩

theorem FirstWordFrom.isRestart {text word : String} {offset stop : Nat}
    (h : FirstWordFrom text offset word stop) :
    IsRestart text (stop + 1) := by
  obtain ⟨before, spaces, behind, htext, -, hstop, -, rfl | ⟨rest, rfl⟩⟩ := h.exists_cut
  · rw [String.append_empty] at htext
    exact .inr (.inl (by rw [htext, hstop]))
  · refine .inr (.inr ⟨before ++ spaces ++ word, rest, ?_, ?_⟩)
    · rw [htext, ← String.append_assoc]
    · rw [String.utf8ByteSize_append, hstop]
      rfl

/-- No character is cut at the offset, and the next word of the text is found from it. -/
structure LooksUp (text : String) (offset used : Nat) : Prop where
  isRestart : IsRestart text offset
  le_succ_size : offset ≤ text.utf8ByteSize + 1
  isValid_of_lt : offset < text.utf8ByteSize → (⟨offset⟩ : String.Pos.Raw).IsValid text
  nextWord?_eq : (nextWord? text offset).map Prod.fst =
    ((words text.toList).map String.ofList)[used]?

/-- The stop is behind the offset and in the text, and one more does not wrap. -/
structure Advances (text : String) (offset stop : Nat) : Prop where
  lt : offset < stop
  le_size : stop ≤ text.utf8ByteSize
  succ_not_wrapped : ∀ bits, text.utf8ByteSize < 1 <<< bits →
    (BitVec.ofNat (bits + 1) stop + 1).toNat = stop + 1

theorem advances_of_bounds {text : String} {offset stop : Nat}
    (h : offset < stop ∧ stop ≤ byteLength text.toList) : Advances text offset stop := by
  obtain ⟨hlt, hle⟩ := h
  rw [← utf8ByteSize_eq] at hle
  refine ⟨hlt, hle, fun bits hbits => ?_⟩
  rw [Nat.one_shiftLeft] at hbits
  have hsucc : stop + 1 < 2 ^ (bits + 1) := by
    rw [Nat.pow_succ]
    omega
  have hone : (1 : BitVec (bits + 1)).toNat = 1 := by simp
  rw [BitVec.toNat_add, BitVec.toNat_ofNat, hone, Nat.mod_eq_of_lt (Nat.lt_of_succ_lt hsucc),
    Nat.mod_eq_of_lt hsucc]

namespace Cursor

/-- A word is looked up at the cursor, with so many words used. -/
structure Seeks (cursor : Cursor) (text : String) (used : Nat) : Prop where
  hasUsed : cursor.HasUsed text.toList used
  isRestart : IsRestart text cursor.offset
  used_le : used ≤ (words text.toList).length

theorem seeks_start (text : String) : (start text.toList).Seeks text 0 :=
  ⟨hasUsed_start text.toList, .inl rfl, Nat.zero_le _⟩

theorem Finds.seeks_advance {cursor stop : Cursor} {spaces word : List Char} {text : String}
    {used : Nat} (h : cursor.Finds spaces word stop) (hseeks : cursor.Seeks text used) :
    stop.advance.Seeks text (used + 1) := by
  refine ⟨h.hasUsed_advance hseeks.hasUsed, ?_, ?_⟩
  · exact (FirstWordFrom.of_finds (h.at?_eq hseeks.hasUsed.standsIn) h).isRestart
  · have hrest := hseeks.hasUsed.words_rest
    rw [h.words_rest] at hrest
    have hlength := congrArg List.length hrest
    rw [List.length_cons, List.length_drop] at hlength
    omega

theorem Seeks.looksUp {cursor : Cursor} {text : String} {used : Nat} (h : cursor.Seeks text used) :
    LooksUp text cursor.offset used :=
  ⟨h.isRestart, h.isRestart.le, h.isRestart.isValid, h.hasUsed.nextWord?_eq⟩

end Cursor

end Text

open Text (Advances LooksUp)

variable {α : Type} [Number α]

namespace Text.Cursor

theorem Seeks.exists_number? {cursor : Cursor} {text : String} {used stop : Nat} {value : α}
    (h : cursor.Seeks text used)
    (hnext : nextNumber? α text cursor.offset = .ok (some (value, stop))) :
    ∃ numberEnd : Cursor, cursor.number? α = .ok (some (value, numberEnd)) ∧
      numberEnd.offset = stop ∧
      numberEnd.advance.Seeks text (used + 1) := by
  rw [nextNumber?_of_standsIn h.hasUsed.standsIn] at hnext
  obtain ⟨numberEnd, hnumber, hoffset⟩ := exists_cursor_of_map_offset hnext
  obtain ⟨spaces, word, hfinds, -⟩ := exists_finds_of_number? hnumber
  exact ⟨numberEnd, hnumber, hoffset, hfinds.seeks_advance h⟩

theorem Seeks.exists_operator? {cursor : Cursor} {text : String} {used stop : Nat} {op : Operator}
    (h : cursor.Seeks text used)
    (hnext : nextOperator? text cursor.offset = .ok (some (op, stop))) :
    ∃ operatorEnd : Cursor, cursor.operator? = .ok (some (op, operatorEnd)) ∧
      operatorEnd.offset = stop ∧
      operatorEnd.advance.Seeks text (used + 1) := by
  rw [nextOperator?_of_standsIn h.hasUsed.standsIn] at hnext
  obtain ⟨operatorEnd, hoperator, hoffset⟩ := exists_cursor_of_map_offset hnext
  obtain ⟨spaces, glyph, hfinds, -⟩ := exists_finds_of_operator? hoperator
  exact ⟨operatorEnd, hoperator, hoffset, hfinds.seeks_advance h⟩

end Text.Cursor

namespace Lexer

/-- A lexer with so many rounds behind it. -/
inductive AtRound (mode : Mode) (text : String) : Nat → Lexer α → Prop
  | start : AtRound mode text 0 (start text)
  | next {rounds : Nat} {lexer next : Lexer α} (h : AtRound mode text rounds lexer)
      (hstep : lexer.step mode text = .more next) : AtRound mode text (rounds + 1) next

theorem run_of_step {lexer next : Lexer α} {mode : Mode} {text : String}
    (h : lexer.step mode text = .more next) :
    lexer.run mode text = next.run mode text := by
  rw [run]
  split
  next next' hstep =>
    rw [h] at hstep
    cases hstep
    rfl
  next hstep =>
    rw [h] at hstep
    cases hstep
  next hstep =>
    rw [h] at hstep
    cases hstep

theorem AtRound.run_eq {lexer : Lexer α} {mode : Mode} {text : String} {rounds : Nat}
    (h : AtRound mode text rounds lexer) : lexer.run mode text = lex mode text := by
  induction h with
  | start => rfl
  | next h hstep ih => rw [← ih, run_of_step hstep]

theorem seeks_of_step {lexer next : Lexer α} {mode : Mode} {text : String} {used : Nat}
    (hstep : lexer.step mode text = .more next) (h : lexer.cursor.Seeks text used) :
    next.cursor.Seeks text (used + 2) := by
  obtain ⟨value, numberEnd, op, operatorEnd, hnumber, hoperator, rfl⟩ := step_eq_more_iff.mp hstep
  obtain ⟨spaces, word, hfinds, -⟩ := Cursor.exists_finds_of_number? hnumber
  obtain ⟨spaces', glyph, hfinds', -⟩ := Cursor.exists_finds_of_operator? hoperator
  exact hfinds'.seeks_advance (hfinds.seeks_advance h)

theorem AtRound.seeks {lexer : Lexer α} {mode : Mode} {text : String} {rounds : Nat}
    (h : AtRound mode text rounds lexer) : lexer.cursor.Seeks text (2 * rounds) := by
  induction h with
  | start => exact Cursor.seeks_start text
  | next h hstep ih => exact seeks_of_step hstep ih

theorem AtRound.rounds_le {lexer : Lexer α} {mode : Mode} {text : String} {rounds : Nat}
    (h : AtRound mode text rounds lexer) : rounds ≤ (words text.toList).length / 2 := by
  have hused := h.seeks.used_le
  omega

theorem AtRound.exists_last {lexer : Lexer α} {mode : Mode} {text : String} {rounds : Nat}
    (h : AtRound mode text rounds lexer) :
    ∃ (rounds : Nat) (last : Lexer α), AtRound mode text rounds last ∧
      ∀ next, last.step mode text ≠ .more next := by
  fun_induction run mode text lexer generalizing rounds with
  | case1 lexer next hstep ih => exact ih (h.next hstep)
  | case2 lexer latest notice hstep =>
    refine ⟨rounds, lexer, h, fun next hmore => ?_⟩
    cases hstep.symm.trans hmore
  | case3 lexer error hstep =>
    refine ⟨rounds, lexer, h, fun next hmore => ?_⟩
    cases hstep.symm.trans hmore

/-- What is known of the lookups of a round, by offsets. -/
structure Round (mode : Mode) (text : String) (rounds : Nat) (lexer : Lexer α) : Prop where
  run_eq : lexer.run mode text = lex mode text
  rounds_le : rounds ≤ (words text.toList).length / 2
  number_looksUp : LooksUp text lexer.cursor.offset (2 * rounds)
  number_advances : ∀ value stop, nextNumber? α text lexer.cursor.offset =
    .ok (some (value, stop)) →
    Advances text lexer.cursor.offset stop
  operator_looksUp : ∀ value stop, nextNumber? α text lexer.cursor.offset =
    .ok (some (value, stop)) →
    LooksUp text (stop + 1) (2 * rounds + 1)
  operator_advances : ∀ offset op stop, nextOperator? text offset = .ok (some (op, stop)) →
    Advances text offset stop
  more_iff : ∀ offset, (∃ next, lexer.step mode text = .more next ∧ next.cursor.offset = offset) ↔
    ∃ value stop op stop', nextNumber? α text lexer.cursor.offset = .ok (some (value, stop)) ∧
      nextOperator? text (stop + 1) = .ok (some (op, stop')) ∧ stop' + 1 = offset
  quoted : ∀ error, nextNumber? α text lexer.cursor.offset = .error error →
    ∃ before rest : String, text = before ++ rest ∧ before.utf8ByteSize = lexer.cursor.offset ∧
      rest ≠ "" ∧
      lexer.step .lenient text = .done lexer.latest (some (.discarded error rest))

theorem exists_step_eq_more_iff {lexer : Lexer α} {mode : Mode} {text : String} {used : Nat}
    (h : lexer.cursor.Seeks text used) (offset : Nat) :
    (∃ next, lexer.step mode text = .more next ∧ next.cursor.offset = offset) ↔
      ∃ value stop op stop', nextNumber? α text lexer.cursor.offset = .ok (some (value, stop)) ∧
        nextOperator? text (stop + 1) = .ok (some (op, stop')) ∧ stop' + 1 = offset := by
  constructor
  · intro hmore
    obtain ⟨next, hstep, hoffset⟩ := hmore
    obtain ⟨value, numberEnd, op, operatorEnd, hnumber, hoperator, rfl⟩ := step_eq_more_iff.mp hstep
    obtain ⟨spaces, word, hfinds, -⟩ := Cursor.exists_finds_of_number? hnumber
    have hstands := (hfinds.seeks_advance h).hasUsed.standsIn
    have hnext : nextOperator? text (numberEnd.offset + 1) = _ := nextOperator?_of_standsIn hstands
    refine ⟨value, numberEnd.offset, op, operatorEnd.offset, ?_, ?_, hoffset⟩
    · rw [nextNumber?_of_standsIn h.hasUsed.standsIn, hnumber]
      rfl
    · rw [hnext, hoperator]
      rfl
  · intro hlookups
    obtain ⟨value, stop, op, stop', hnextNumber, hnextOperator, rfl⟩ := hlookups
    obtain ⟨numberEnd, hnumber, rfl, hseeks⟩ := h.exists_number? hnextNumber
    obtain ⟨operatorEnd, hoperator, rfl, -⟩ := hseeks.exists_operator? hnextOperator
    exact ⟨_, step_eq_more_iff.mpr ⟨value, numberEnd, op, operatorEnd, hnumber, hoperator, rfl⟩,
      rfl⟩

theorem exists_rest_of_nextNumber?_error {lexer : Lexer α} {text : String} {used : Nat}
    {error : Error} (h : lexer.cursor.Seeks text used)
    (hnext : nextNumber? α text lexer.cursor.offset = .error error) :
    ∃ before rest : String, text = before ++ rest ∧ before.utf8ByteSize = lexer.cursor.offset ∧
      rest ≠ "" ∧
      lexer.step .lenient text = .done lexer.latest (some (.discarded error rest)) := by
  rw [nextNumber?_of_standsIn h.hasUsed.standsIn] at hnext
  have hnumber := map_eq_error_iff.mp hnext
  obtain ⟨spaces, word, stop, hfinds, -⟩ := Cursor.exists_finds_of_number?_error hnumber
  obtain ⟨before, htext, hbefore⟩ :=
    Text.at?_eq_some_iff_append.mp (hfinds.at?_eq h.hasUsed.standsIn)
  refine ⟨before, _, htext, hbefore, ?_, ?_⟩
  · exact fun hempty => hfinds.rest_ne_nil (String.ofList_eq_empty_iff.mp hempty)
  · rw [step, hnumber]

theorem AtRound.round {lexer : Lexer α} {mode : Mode} {text : String} {rounds : Nat}
    (h : AtRound mode text rounds lexer) : Round mode text rounds lexer where
  run_eq := h.run_eq
  rounds_le := h.rounds_le
  number_looksUp := h.seeks.looksUp
  number_advances _ _ hnumber := Text.advances_of_bounds (nextNumber?_bounds hnumber)
  operator_looksUp _ _ hnumber := by
    obtain ⟨numberEnd, -, rfl, hseeks⟩ := h.seeks.exists_number? hnumber
    exact hseeks.looksUp
  operator_advances _ _ _ hoperator := Text.advances_of_bounds (nextOperator?_bounds hoperator)
  more_iff := exists_step_eq_more_iff h.seeks
  quoted _ hnumber := exists_rest_of_nextNumber?_error h.seeks hnumber

end Lexer

/-- Every round looks words up where a character begins or the text has ended. There is at most one
round more than half as many as there are words. -/
theorem lex_rounds (mode : Mode) (text : String) :
    (∀ rounds (lexer : Lexer α), lexer.AtRound mode text rounds → lexer.Round mode text rounds) ∧
      ∃ rounds, ∃ last : Lexer α, last.AtRound mode text rounds ∧
        (∀ next, last.step mode text ≠ .more next) ∧
        rounds + 1 ≤ (words text.toList).length / 2 + 1 := by
  refine ⟨fun rounds lexer h => h.round, ?_⟩
  have hstart : (Lexer.start text : Lexer α).AtRound mode text 0 := .start
  obtain ⟨rounds, last, hlast, hstep⟩ := hstart.exists_last
  exact ⟨rounds, last, hlast, hstep, Nat.succ_le_succ hlast.rounds_le⟩

/-- The second round begins between two spaces and refuses the word behind them. -/
theorem lex_rounds_refused :
    ∃ lexer : Lexer Float, lexer.cursor.offset = 5 ∧ lexer.Round .lenient "7  -  é + 3\t" 1 ∧
      nextNumber? Float "7  -  é + 3\t" lexer.cursor.offset = .error (.notANumber "é") := by
  have hstep : (Lexer.start "7  -  é + 3\t" : Lexer Float).step .lenient "7  -  é + 3\t" =
      .more ⟨⟨5, " é + 3\t".toList⟩, [.operator .subtract, .number 7]⟩ :=
    Lexer.step_eq_more_iff.mpr ⟨7, ⟨1, "  -  é + 3\t".toList⟩, .subtract, ⟨4, "  é + 3\t".toList⟩,
      by decide +kernel, by decide +kernel, rfl⟩
  exact ⟨_, rfl, (lex_rounds .lenient "7  -  é + 3\t").1 1 _ (.next .start hstep),
    by decide +kernel⟩

end InfixArith
