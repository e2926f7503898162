import InfixArith.Number.Ieee
import InfixArith.Proofs.Reading
/-!
# Lexing by byte offsets

A place in a text can be given as a byte offset alone, from which the next word is looked up. Lexing
that way looks a word up one byte behind the word before it. That byte is the space that ends the
word, so the offset is again one where a character begins; only behind the last word it may be past
the end, where no word is found. Hence no word is lost or cut in two, and offsets lex a text as
cursors do.
-/

namespace InfixArith

open Sequence (Alternating)
open Text (Cursor byteLength dropBytes? isSpace words)

namespace Text

@[simp] theorem byteLength_nil : byteLength [] = 0 := rfl

@[simp] theorem byteLength_cons (c : Char) (chars : List Char) :
    byteLength (c :: chars) = c.utf8Size + byteLength chars := rfl

@[simp] theorem byteLength_append (left right : List Char) :
    byteLength (left ++ right) = byteLength left + byteLength right := by
  induction left with
  | nil => simp
  | cons c left ih => rw [List.cons_append, byteLength_cons, byteLength_cons, ih, Nat.add_assoc]

theorem byteLength_pos {chars : List Char} (h : chars ≠ []) : 0 < byteLength chars := by
  cases chars with
  | nil => exact absurd rfl h
  | cons c chars =>
    have hsize := c.utf8Size_pos
    rw [byteLength_cons]
    omega

theorem dropBytes?_eq_some_iff {offset : Nat} {chars rest : List Char} :
    dropBytes? offset chars = some rest ↔ ∃ before, chars = before ++ rest ∧
      byteLength before = offset := by
  constructor
  · intro h
    fun_induction dropBytes? offset chars with
    | case1 chars =>
      cases h
      exact ⟨[], rfl, rfl⟩
    | case2 => cases h
    | case3 offset c chars hle ih =>
      obtain ⟨before, rfl, hbefore⟩ := ih h
      refine ⟨c :: before, rfl, ?_⟩
      rw [byteLength_cons]
      omega
    | case4 => cases h
  · intro h
    obtain ⟨before, rfl, rfl⟩ := h
    induction before with
    | nil => rw [byteLength_nil, List.nil_append, dropBytes?]
    | cons c before ih =>
      have hsize := c.utf8Size_pos
      obtain ⟨offset, hoffset⟩ : ∃ offset, byteLength (c :: before) = offset + 1 :=
        ⟨c.utf8Size + byteLength before - 1, by rw [byteLength_cons]; omega⟩
      rw [hoffset, List.cons_append, dropBytes?]
      rw [byteLength_cons] at hoffset
      rw [if_pos (by omega), ← hoffset, Nat.add_sub_cancel_left]
      exact ih

namespace Cursor

theorem at?_eq_some_iff {chars : List Char} {offset : Nat} {cursor : Cursor} :
    at? chars offset = some cursor ↔
      cursor.offset = offset ∧ ∃ before, chars = before ++ cursor.rest ∧
        byteLength before = offset := by
  rw [at?, Option.map_eq_some_iff]
  constructor
  · intro h
    obtain ⟨rest, hrest, rfl⟩ := h
    exact ⟨rfl, dropBytes?_eq_some_iff.mp hrest⟩
  · intro h
    obtain ⟨hoffset, hbefore⟩ := h
    refine ⟨cursor.rest, dropBytes?_eq_some_iff.mpr hbefore, ?_⟩
    rw [← hoffset]

/-- The cursor is a place of the text, or past its end. -/
def StandsIn (cursor : Cursor) (chars : List Char) : Prop :=
  at? chars cursor.offset = some cursor ∨ byteLength chars < cursor.offset ∧ cursor.rest = []

theorem standsIn_start (chars : List Char) : (start chars).StandsIn chars :=
  .inl (at?_eq_some_iff.mpr ⟨rfl, [], rfl, rfl⟩)

theorem at?_eq_none_of_lt {chars : List Char} {offset : Nat} (h : byteLength chars < offset) :
    at? chars offset = none := by
  rw [Option.eq_none_iff_forall_ne_some]
  intro cursor hcursor
  obtain ⟨-, before, rfl, rfl⟩ := at?_eq_some_iff.mp hcursor
  rw [byteLength_append] at h
  omega

theorem Finds.at?_eq {cursor stop : Cursor} {spaces word chars : List Char}
    (h : cursor.Finds spaces word stop) (hstands : cursor.StandsIn chars) :
    at? chars cursor.offset = some cursor :=
  hstands.resolve_right fun hpast => h.rest_ne_nil hpast.2

theorem Finds.standsIn_advance {cursor stop : Cursor} {spaces word chars : List Char}
    (h : cursor.Finds spaces word stop) (hstands : cursor.StandsIn chars) :
    stop.advance.StandsIn chars := by
  obtain ⟨-, before, hchars, hbefore⟩ := at?_eq_some_iff.mp (h.at?_eq hstands)
  have hoffset := h.offset_eq
  rw [h.rest_eq] at hchars
  cases hstop : stop.rest with
  | nil =>
    refine .inr ⟨?_, ?_⟩
    · rw [hchars, hstop, advance]
      simp only [byteLength_append, byteLength_nil]
      omega
    · rw [advance, hstop]
      rfl
  | cons space behind =>
    have hspace : space = ' ' := isSpace_iff.mp (h.isSpace_of_mem_head? space (by rw [hstop]; rfl))
    refine .inl (at?_eq_some_iff.mpr ⟨rfl, before ++ (spaces ++ (word ++ [space])), ?_, ?_⟩)
    · rw [hchars, advance, hstop]
      simp only [List.append_assoc, List.singleton_append, List.tail_cons]
    · have hsize : (' ' : Char).utf8Size = 1 := rfl
      rw [hspace, advance]
      simp only [byteLength_append, byteLength_cons, byteLength_nil, hsize]
      omega

theorem Finds.offset_bounds {cursor stop : Cursor} {spaces word chars : List Char} {offset : Nat}
    (h : cursor.Finds spaces word stop) (hat : at? chars offset = some cursor) :
    offset < stop.offset ∧ stop.offset ≤ byteLength chars := by
  obtain ⟨rfl, before, hchars, hbefore⟩ := at?_eq_some_iff.mp hat
  have hpos := byteLength_pos h.word_ne_nil
  rw [hchars, h.offset_eq, h.rest_eq]
  simp only [byteLength_append]
  omega

end Cursor

end Text

/-! ### The two lexers -/

variable {α : Type} [Number α]

namespace Text.Cursor

theorem exists_finds_of_number? {cursor stop : Cursor} {value : α}
    (h : cursor.number? α = .ok (some (value, stop))) :
    ∃ spaces word, cursor.Finds spaces word stop ∧
      Number.read? (String.ofList word) = some value := by
  unfold number? at h
  split at h
  · cases h
  next word stop' hword =>
    obtain ⟨spaces, hfinds⟩ := exists_finds_of_word? hword
    split at h
    next hvalue =>
      cases h
      exact ⟨spaces, word, hfinds, hvalue⟩
    · cases h

theorem exists_finds_of_operator? {cursor stop : Cursor} {op : Operator}
    (h : cursor.operator? = .ok (some (op, stop))) :
    ∃ spaces glyph, cursor.Finds spaces [glyph] stop ∧ Operator.ofGlyph? glyph = some op := by
  unfold operator? at h
  split at h
  next glyph stop' hword =>
    obtain ⟨spaces, hfinds⟩ := exists_finds_of_word? hword
    split at h
    next hop =>
      cases h
      exact ⟨spaces, glyph, hfinds, hop⟩
    · cases h
  · cases h

end Text.Cursor

theorem exists_cursor_of_map_offset {β : Type} {value : β} {stop : Nat}
    {found : Except Error (Option (β × Cursor))}
    (h : (·.map fun (value, stop) => (value, stop.offset)) <$> found = .ok (some (value, stop))) :
    ∃ cursor, found = .ok (some (value, cursor)) ∧ cursor.offset = stop := by
  obtain ⟨entry, hfound, hentry⟩ := map_eq_ok_iff.mp h
  obtain ⟨⟨value', cursor⟩, rfl, hstop⟩ := Option.map_eq_some_iff.mp hentry
  cases hstop
  exact ⟨cursor, hfound, rfl⟩

theorem bounds_of_lookup {β : Type} {chars : List Char} {offset stop : Nat} {cursor : Cursor}
    {value : β}
    {found : Except Error (Option (β × Cursor))} (hat : Cursor.at? chars offset = some cursor)
    (hfinds : ∀ {value stop}, found = .ok (some (value, stop)) →
      ∃ spaces word, cursor.Finds spaces word stop)
    (h : (·.map fun (value, stop) => (value, stop.offset)) <$> found = .ok (some (value, stop))) :
    offset < stop ∧ stop ≤ byteLength chars := by
  obtain ⟨cursor', hfound, rfl⟩ := exists_cursor_of_map_offset h
  obtain ⟨spaces, word, hword⟩ := hfinds hfound
  exact hword.offset_bounds hat

theorem nextNumber?_bounds {text : String} {offset stop : Nat} {value : α}
    (h : nextNumber? α text offset = .ok (some (value, stop))) :
    offset < stop ∧ stop ≤ byteLength text.toList := by
  rw [nextNumber?] at h
  split at h
  · cases h
  next cursor hat =>
    refine bounds_of_lookup hat (fun hfound => ?_) h
    obtain ⟨spaces, word, hfinds, -⟩ := Cursor.exists_finds_of_number? hfound
    exact ⟨spaces, word, hfinds⟩

theorem nextOperator?_bounds {text : String} {offset stop : Nat} {op : Operator}
    (h : nextOperator? text offset = .ok (some (op, stop))) :
    offset < stop ∧ stop ≤ byteLength text.toList := by
  rw [nextOperator?] at h
  split at h
  · cases h
  next cursor hat =>
    refine bounds_of_lookup hat (fun hfound => ?_) h
    obtain ⟨spaces, glyph, hfinds, -⟩ := Cursor.exists_finds_of_operator? hfound
    exact ⟨spaces, [glyph], hfinds⟩

theorem nextNumber?_of_standsIn {text : String} {cursor : Cursor}
    (h : cursor.StandsIn text.toList) :
    nextNumber? α text cursor.offset =
      (·.map fun (value, stop) => (value, stop.offset)) <$> cursor.number? α := by
  rw [nextNumber?]
  obtain hat | ⟨hpast, hrest⟩ := h
  · rw [hat]
  · rw [Cursor.at?_eq_none_of_lt hpast, Cursor.number?, Cursor.word?, hrest]
    rfl

theorem nextOperator?_of_standsIn {text : String} {cursor : Cursor}
    (h : cursor.StandsIn text.toList) :
    nextOperator? text cursor.offset =
      (·.map fun (op, stop) => (op, stop.offset)) <$> cursor.operator? := by
  rw [nextOperator?]
  obtain hat | ⟨hpast, hrest⟩ := h
  · rw [hat]
  · rw [Cursor.at?_eq_none_of_lt hpast, Cursor.operator?, Cursor.word?, hrest]
    rfl

/-- Looks each word up one byte behind the one before. -/
def lexFrom (mode : Mode) (text : String) (offset : Nat) : Except Error (List (Symbol α)) :=
  match _hnumber : nextNumber? α text offset with
  | .error error => mode.refuse error
  | .ok none => .ok []
  | .ok (some (value, numberEnd)) =>
      match _hoperator : nextOperator? text (numberEnd + 1) with
      | .error error => .error error
      | .ok none => .ok [.number value]
      | .ok (some (op, operatorEnd)) =>
          (lexFrom mode text (operatorEnd + 1)).map fun symbols =>
            .number value :: .operator op :: symbols
termination_by byteLength text.toList - offset
decreasing_by
  have hnumberBounds := nextNumber?_bounds _hnumber
  have hoperatorBounds := nextOperator?_bounds _hoperator
  omega

theorem lexFrom_eq (mode : Mode) (text : String) (offset : Nat) :
    (lexFrom mode text offset : Except Error (List (Symbol α))) =
      match nextNumber? α text offset with
      | .error error => mode.refuse error
      | .ok none => .ok []
      | .ok (some (value, numberEnd)) =>
          match nextOperator? text (numberEnd + 1) with
          | .error error => .error error
          | .ok none => .ok [.number value]
          | .ok (some (op, operatorEnd)) =>
              (lexFrom mode text (operatorEnd + 1)).map fun symbols =>
                .number value :: .operator op :: symbols := by
  rw [lexFrom]
  split
  next error hnumber => rw [hnumber]
  next hnumber => rw [hnumber]
  next value numberEnd hnumber =>
    rw [hnumber]
    dsimp only
    split
    next error hoperator => rw [hoperator]
    next hoperator => rw [hoperator]
    next op operatorEnd hoperator => rw [hoperator]

theorem lexFrom_offset {mode : Mode} {text : String} {cursor : Cursor}
    (h : cursor.StandsIn text.toList) :
    (lexFrom mode text cursor.offset : Except Error (List (Symbol α))) =
      readWords mode .number (words cursor.rest) := by
  -- A number and an operator leave a cursor that stands in the text again, with less behind it.
  induction hlength : cursor.rest.length using Nat.strong_induction_on generalizing cursor with
  | _ length ih =>
    rw [lexFrom_eq, nextNumber?_of_standsIn h, readWords_number_rest]
    cases hnumber : cursor.number? α with
    | error error => rfl
    | ok found =>
      cases found with
      | none => rfl
      | some entry =>
        obtain ⟨value, stop⟩ := entry
        obtain ⟨spaces, word, hfinds, -⟩ := Cursor.exists_finds_of_number? hnumber
        have hstands := hfinds.standsIn_advance h
        have hoffset : nextOperator? text (stop.offset + 1) = _ := nextOperator?_of_standsIn hstands
        dsimp only [Functor.map, Except.map, Option.map]
        rw [hoffset]
        dsimp only
        rw [readWords_operator_rest]
        cases hoperator : stop.advance.operator? with
        | error error => rfl
        | ok found =>
          cases found with
          | none => rfl
          | some entry =>
            obtain ⟨op, stop'⟩ := entry
            obtain ⟨spaces', glyph, hfinds', -⟩ := Cursor.exists_finds_of_operator? hoperator
            have hshorter : stop'.advance.rest.length < length := by
              have hnumber := Cursor.length_rest_lt_of_number? hnumber
              have hoperator := Cursor.length_rest_lt_of_operator? hoperator
              have hadvance := Cursor.length_rest_advance_le stop
              have hadvance' := Cursor.length_rest_advance_le stop'
              omega
            have hrest : lexFrom mode text (stop'.offset + 1) = _ :=
              ih stop'.advance.rest.length hshorter (hfinds'.standsIn_advance hstands) rfl
            dsimp only [Functor.map, Except.map, Option.map]
            rw [hrest]
            cases (readWords mode .number (words stop'.advance.rest) :
              Except Error (List (Symbol α))) <;> rfl

/-! ### What a text says -/

/-- A text of spaces. -/
def blanks (count : Nat) : String := String.ofList (List.replicate count ' ')

theorem isSpace_of_mem_blanks {count : Nat} {c : Char} (h : c ∈ (blanks count).toList) :
    isSpace c = true := by
  rw [blanks, String.toList_ofList] at h
  rw [List.eq_of_mem_replicate h]
  rfl

/-- The symbols of a text are what its words are read as, and they alternate. No amount of space
matters. -/
theorem lex_reads_words (mode : Mode) (text : String) :
    (lex mode text).value =
      (readWords mode .number (words text.toList) : Except Error (List (Symbol α))) ∧
      lexFrom mode text 0 = ((lex mode text).value : Except Error (List (Symbol α))) ∧
      (∀ symbols : List (Symbol α), (lex mode text).value = .ok symbols → Alternating symbols) ∧
      (∀ other : String, words other.toList = words text.toList →
        ((lex mode other).value : Except Error (List (Symbol α))) = (lex mode text).value) ∧
      (∀ leading trailing : Nat,
        ((lex mode (blanks leading ++ text ++ blanks trailing)).value :
          Except Error (List (Symbol α))) =
          (lex mode text).value) ∧
      ∀ (before behind : String) (extra : Nat), text = before ++ " " ++ behind →
        ((lex mode (before ++ blanks (extra + 1) ++ behind)).value :
          Except Error (List (Symbol α))) =
          (lex mode text).value := by
  have hwords : ∀ other : String, words other.toList = words text.toList →
      ((lex mode other).value : Except Error (List (Symbol α))) = (lex mode text).value := by
    intro other hother
    rw [value_lex, value_lex, hother]
  refine ⟨value_lex mode text, ?_, ?_, hwords, ?_, ?_⟩
  · rw [value_lex]
    exact lexFrom_offset (Cursor.standsIn_start text.toList)
  · intro symbols hsymbols
    rw [value_lex] at hsymbols
    exact alternating_of_readWords hsymbols
  · intro leading trailing
    apply hwords
    rw [String.toList_append, String.toList_append,
      Text.words_append_spaces fun c => isSpace_of_mem_blanks,
      Text.words_spaces_append fun c => isSpace_of_mem_blanks]
  · intro before behind extra htext
    apply hwords
    have hblanks : (blanks (extra + 1)).toList = ' ' :: (blanks extra).toList := by
      rw [blanks, blanks, String.toList_ofList, String.toList_ofList, List.replicate_succ]
    have hspace : (" " : String).toList = [' '] := rfl
    simp only [htext, String.toList_append, hblanks, hspace, List.append_assoc, List.cons_append,
      List.nil_append]
    rw [Text.words_append_space rfl, Text.words_append_space rfl,
      Text.words_spaces_append fun c => isSpace_of_mem_blanks]

/-- A word of two bytes that is no number ends the expression before it. -/
theorem lex_reads_words_lenient :
    (lex .lenient "  7   -  é 2").value = .ok [.number (7 : Float), .operator .subtract] ∧
      ((lex .strict "  7   -  é 2").value : Except Error (List (Symbol Float))) =
        .error (.notANumber "é") :=
  ⟨(lex_reads_words .lenient "  7   -  é 2").1.trans (by decide +kernel),
    (lex_reads_words .strict "  7   -  é 2").1.trans (by decide +kernel)⟩

end InfixArith
