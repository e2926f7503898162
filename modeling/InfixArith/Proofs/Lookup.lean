import InfixArith.Proofs.Offsets
/-!
# Looking words up by byte offsets

From a byte offset at which a character begins, the first word behind it is found: there are only
spaces before it, and it goes on to the next space or to the end of the text. From any other offset
nothing is found. If the search goes on where a word ended, or one byte later, it goes on in front
of the words that are left. So it comes to every word of the text in order, and to nothing more when
they have run out.
-/

namespace InfixArith.Text

/-! ### Byte offsets of strings -/

theorem utf8ByteSize_ofList_eq (chars : List Char) :
    (String.ofList chars).utf8ByteSize = byteLength chars := by
  induction chars with
  | nil => rfl
  | cons c chars ih =>
    rw [← List.singleton_append, String.ofList_append, String.utf8ByteSize_append, ih,
      ← String.singleton_eq_ofList, String.utf8ByteSize_singleton]
    rfl

theorem utf8ByteSize_eq (text : String) : text.utf8ByteSize = byteLength text.toList := by
  rw [← utf8ByteSize_ofList_eq, String.ofList_toList]

theorem isValid_iff {text : String} {offset : Nat} :
    (⟨offset⟩ : String.Pos.Raw).IsValid text ↔
      ∃ before behind : String, text = before ++ behind ∧ before.utf8ByteSize = offset := by
  rw [String.Pos.Raw.isValid_iff_exists_append]
  refine exists_congr fun before => exists_congr fun behind => and_congr_right fun _ => ?_
  rw [String.Pos.Raw.ext_iff, String.byteIdx_rawEndPos, eq_comm]

/-- There is a place where a character begins or the text ends. -/
theorem at?_eq_some_iff_append {text : String} {offset : Nat} {rest : List Char} :
    Cursor.at? text.toList offset = some ⟨offset, rest⟩ ↔
      ∃ before : String, text = before ++ String.ofList rest ∧ before.utf8ByteSize = offset := by
  rw [Cursor.at?_eq_some_iff]
  constructor
  · intro h
    obtain ⟨-, before, hchars, hbefore⟩ := h
    refine ⟨String.ofList before, ?_, by rw [utf8ByteSize_ofList_eq, hbefore]⟩
    rw [← String.ofList_append, ← hchars, String.ofList_toList]
  · intro h
    obtain ⟨before, htext, hbefore⟩ := h
    refine ⟨rfl, before.toList, ?_, by rw [← utf8ByteSize_eq, hbefore]⟩
    rw [htext, String.toList_append, String.toList_ofList]

theorem at?_ne_none_iff {text : String} {offset : Nat} :
    Cursor.at? text.toList offset ≠ none ↔ (⟨offset⟩ : String.Pos.Raw).IsValid text := by
  rw [isValid_iff]
  constructor
  · intro h
    obtain ⟨⟨offset', rest⟩, hat⟩ := Option.ne_none_iff_exists'.mp h
    obtain rfl : offset' = offset := (Cursor.at?_eq_some_iff.mp hat).1
    obtain ⟨before, htext, hbefore⟩ := at?_eq_some_iff_append.mp hat
    exact ⟨before, _, htext, hbefore⟩
  · intro h
    obtain ⟨before, behind, htext, hbefore⟩ := h
    have hat : Cursor.at? text.toList offset = some ⟨offset, behind.toList⟩ :=
      at?_eq_some_iff_append.mpr ⟨before, by rw [String.ofList_toList, htext], hbefore⟩
    rw [hat]
    exact Option.some_ne_none _

/-! ### The first word behind an offset -/

namespace Cursor

theorem Finds.word?_eq {cursor stop : Cursor} {spaces word : List Char}
    (h : cursor.Finds spaces word stop) :
    cursor.word? = some (word, stop) := by
  obtain ⟨first, others, hword⟩ := List.exists_cons_of_ne_nil h.word_ne_nil
  have hfirst : isSpace first = false :=
    h.isSpace_of_mem_word first (by rw [hword]; exact List.mem_cons_self)
  have hspaces : cursor.rest.takeWhile isSpace = spaces ∧
      cursor.rest.dropWhile isSpace = word ++ stop.rest := by
    rw [h.rest_eq, List.takeWhile_append_of_pos h.isSpace_of_mem_spaces,
      List.dropWhile_append_of_pos h.isSpace_of_mem_spaces, hword, List.cons_append]
    simp [hfirst]
  have hother : ∀ c ∈ word, (!isSpace c) = true :=
    fun c hc => by rw [h.isSpace_of_mem_word c hc]; rfl
  have hstop : stop.rest.takeWhile (!isSpace ·) = [] ∧
      stop.rest.dropWhile (!isSpace ·) = stop.rest := by
    cases hrest : stop.rest with
    | nil => exact ⟨rfl, rfl⟩
    | cons space behind =>
      have hspace : isSpace space = true := h.isSpace_of_mem_head? space (by rw [hrest]; rfl)
      simp [hspace]
  rw [word?, hspaces.1, hspaces.2, List.takeWhile_append_of_pos hother,
    List.dropWhile_append_of_pos hother, hstop.1, hstop.2, List.append_nil, if_neg h.word_ne_nil,
    ← h.offset_eq]

theorem head?_words_rest (cursor : Cursor) :
    (words cursor.rest).head? = cursor.word?.map Prod.fst := by
  cases hword : cursor.word? with
  | none => rw [words_rest_of_word?_eq_none hword]; rfl
  | some found =>
    obtain ⟨word, stop⟩ := found
    obtain ⟨spaces, hfinds⟩ := exists_finds_of_word? hword
    rw [hfinds.words_rest]
    rfl

theorem word?_eq_none_iff {cursor : Cursor} :
    cursor.word? = none ↔ ∀ c ∈ cursor.rest, isSpace c = true := by
  refine ⟨isSpace_of_word?_eq_none, fun h => ?_⟩
  have hhead := head?_words_rest cursor
  rw [words_of_spaces h] at hhead
  exact Option.map_eq_none_iff.mp hhead.symm

end Cursor

/-- Only spaces are between the offset and the word, which reaches up to a space or the end. -/
structure FirstWordFrom (text : String) (offset : Nat) (word : String) (stop : Nat) : Prop where
  word_ne_empty : word ≠ ""
  space_notMem_word : ' ' ∉ word.toList
  exists_cut : ∃ before spaces behind : String, text = before ++ spaces ++ word ++ behind ∧
    before.utf8ByteSize = offset ∧ (before ++ spaces ++ word).utf8ByteSize = stop ∧
    (∀ c ∈ spaces.toList, c = ' ') ∧ (behind = "" ∨ ∃ rest, behind = " " ++ rest)

theorem FirstWordFrom.of_finds {text : String} {cursor stop : Cursor} {spaces word : List Char}
    (hat : Cursor.at? text.toList cursor.offset = some cursor) (h : cursor.Finds spaces word stop) :
    FirstWordFrom text cursor.offset (String.ofList word) stop.offset := by
  obtain ⟨before, htext, hbefore⟩ := at?_eq_some_iff_append.mp hat
  refine ⟨?_, ?_, before, String.ofList spaces, String.ofList stop.rest, ?_, hbefore, ?_,
    fun c hc => ?_, ?_⟩
  · intro hempty
    exact h.word_ne_nil (String.ofList_eq_empty_iff.mp hempty)
  · intro hmem
    rw [String.toList_ofList] at hmem
    cases h.isSpace_of_mem_word _ hmem
  · rw [htext, h.rest_eq, String.ofList_append, String.ofList_append, String.append_assoc,
      String.append_assoc]
  · rw [String.utf8ByteSize_append, String.utf8ByteSize_append, hbefore, utf8ByteSize_ofList_eq,
      utf8ByteSize_ofList_eq, h.offset_eq]
  · rw [String.toList_ofList] at hc
    exact isSpace_iff.mp (h.isSpace_of_mem_spaces c hc)
  · cases hrest : stop.rest with
    | nil => exact .inl rfl
    | cons space behind =>
      have hspace : isSpace space = true := h.isSpace_of_mem_head? space (by rw [hrest]; rfl)
      refine .inr ⟨String.ofList behind, ?_⟩
      rw [isSpace_iff.mp hspace, ← List.singleton_append, String.ofList_append]

theorem FirstWordFrom.exists_finds {text word : String} {offset stop : Nat}
    (h : FirstWordFrom text offset word stop) :
    ∃ rest spaces behind, Cursor.at? text.toList offset = some ⟨offset, rest⟩ ∧
      Cursor.Finds ⟨offset, rest⟩ spaces word.toList ⟨stop, behind⟩ := by
  obtain ⟨before, spaces, behind, htext, hbefore, hstop, hspaces, hbehind⟩ := h.exists_cut
  refine ⟨(spaces ++ word ++ behind).toList, spaces.toList, behind.toList,
    at?_eq_some_iff_append.mpr ⟨before, ?_, hbefore⟩, ?_, ?_,
    fun c hc => isSpace_iff.mpr (hspaces c hc), ?_, ?_, ?_⟩
  · rw [String.ofList_toList, htext, String.append_assoc, String.append_assoc, String.append_assoc]
  · simp only [String.toList_append, List.append_assoc]
  · rw [← utf8ByteSize_eq, ← utf8ByteSize_eq, ← hstop, String.utf8ByteSize_append,
      String.utf8ByteSize_append, hbefore]
  · exact mt String.toList_eq_nil_iff.mp h.word_ne_empty
  · intro c hc
    have hne : c ≠ ' ' := by
      rintro rfl
      exact h.space_notMem_word hc
    simpa [isSpace] using hne
  · intro c hc
    obtain rfl | ⟨rest, rfl⟩ := hbehind
    · cases hc
    · have hspace : (" " : String).toList = [' '] := rfl
      rw [String.toList_append, hspace] at hc
      cases hc
      rfl

theorem nextWord?_eq_some_iff {text word : String} {offset stop : Nat} :
    nextWord? text offset = some (word, stop) ↔ FirstWordFrom text offset word stop := by
  constructor
  · intro h
    obtain ⟨⟨chars, stop⟩, hbind, hpair⟩ := Option.map_eq_some_iff.mp h
    obtain ⟨cursor, hat, hword⟩ := Option.bind_eq_some_iff.mp hbind
    obtain ⟨spaces, hfinds⟩ := Cursor.exists_finds_of_word? hword
    cases hpair
    obtain rfl := (Cursor.at?_eq_some_iff.mp hat).1
    exact .of_finds hat hfinds
  · intro h
    obtain ⟨rest, spaces, behind, hat, hfinds⟩ := h.exists_finds
    rw [nextWord?, hat, Option.bind_some, hfinds.word?_eq, Option.map_some]
    dsimp only
    rw [String.ofList_toList]

theorem FirstWordFrom.extract_eq {text word : String} {offset stop : Nat}
    (h : FirstWordFrom text offset word stop) :
    text.toByteArray.extract (stop - word.utf8ByteSize) stop = word.toByteArray := by
  obtain ⟨before, spaces, behind, rfl, -, rfl, -⟩ := h.exists_cut
  have hstart : (before ++ spaces ++ word).utf8ByteSize - word.utf8ByteSize =
      (before ++ spaces).utf8ByteSize := by
    rw [String.utf8ByteSize_append]
    omega
  have hbytes :
      (before ++ spaces ++ word).toByteArray.size = (before ++ spaces ++ word).utf8ByteSize := rfl
  rw [hstart, String.toByteArray_append, ← hbytes, ByteArray.extract_append_size_left,
    String.toByteArray_append]
  exact ByteArray.extract_append_eq_right rfl (by rw [ByteArray.size_append])

theorem nextWord?_eq_none_iff {text : String} {offset : Nat} :
    nextWord? text offset = none ↔
      ¬ ((⟨offset⟩ : String.Pos.Raw).IsValid text ∧ offset < text.utf8ByteSize) ∨
        ∃ before spaces : String, text = before ++ spaces ∧ before.utf8ByteSize = offset ∧
          ∀ c ∈ spaces.toList, c = ' ' := by
  rw [nextWord?, Option.map_eq_none_iff]
  constructor
  · intro h
    refine or_iff_not_imp_left.mpr fun hplace => ?_
    obtain ⟨hvalid, -⟩ := not_not.mp hplace
    obtain ⟨cursor, hat⟩ := Option.ne_none_iff_exists'.mp (at?_ne_none_iff.mpr hvalid)
    rw [hat, Option.bind_some] at h
    obtain rfl := (Cursor.at?_eq_some_iff.mp hat).1
    obtain ⟨before, htext, hbefore⟩ := at?_eq_some_iff_append.mp hat
    refine ⟨before, _, htext, hbefore, fun c hc => ?_⟩
    rw [String.toList_ofList] at hc
    exact isSpace_iff.mp (Cursor.word?_eq_none_iff.mp h c hc)
  · intro h
    obtain hplace | ⟨before, spaces, htext, hbefore, hspaces⟩ := h
    · cases hat : Cursor.at? text.toList offset with
      | none => rfl
      | some cursor =>
        -- The only place that is not before the end is the end.
        obtain rfl := (Cursor.at?_eq_some_iff.mp hat).1
        obtain ⟨before, htext, hbefore⟩ := at?_eq_some_iff_append.mp hat
        have hvalid := at?_ne_none_iff.mp (hat ▸ Option.some_ne_none cursor)
        have hend : ¬ 0 < byteLength cursor.rest := by
          intro hpos
          refine hplace ⟨hvalid, ?_⟩
          rw [htext, String.utf8ByteSize_append, hbefore, utf8ByteSize_ofList_eq]
          omega
        have hrest : cursor.rest = [] := not_not.mp (mt byteLength_pos hend)
        rw [Option.bind_some, Cursor.word?_eq_none_iff, hrest]
        exact nofun
    · have hat : Cursor.at? text.toList offset = some ⟨offset, spaces.toList⟩ :=
        at?_eq_some_iff_append.mpr ⟨before, by rw [String.ofList_toList, htext], hbefore⟩
      rw [hat, Option.bind_some, Cursor.word?_eq_none_iff]
      exact fun c hc => isSpace_iff.mpr (hspaces c hc)

/-! ### Going on behind a word -/

namespace Cursor

/-- So many words are before the cursor, or there are no more. -/
structure HasUsed (cursor : Cursor) (chars : List Char) (used : Nat) : Prop where
  standsIn : cursor.StandsIn chars
  words_rest : words cursor.rest = (words chars).drop used

theorem hasUsed_start (chars : List Char) : (start chars).HasUsed chars 0 :=
  ⟨standsIn_start chars, rfl⟩

theorem HasUsed.word?_eq {cursor : Cursor} {chars : List Char} {used : Nat}
    (h : cursor.HasUsed chars used) :
    cursor.word?.map Prod.fst = (words chars)[used]? := by
  rw [← head?_words_rest, h.words_rest, List.head?_drop]

theorem Finds.standsIn_stop {cursor stop : Cursor} {spaces word chars : List Char}
    (h : cursor.Finds spaces word stop) (hstands : cursor.StandsIn chars) :
    stop.StandsIn chars := by
  obtain ⟨-, before, hchars, hbefore⟩ := at?_eq_some_iff.mp (h.at?_eq hstands)
  refine .inl (at?_eq_some_iff.mpr ⟨rfl, before ++ (spaces ++ word), ?_, ?_⟩)
  · rw [hchars, h.rest_eq]
    simp only [List.append_assoc]
  · rw [byteLength_append, byteLength_append, hbefore, h.offset_eq, Nat.add_assoc]

theorem Finds.drop_succ_words {cursor stop : Cursor} {spaces word chars : List Char} {used : Nat}
    (h : cursor.Finds spaces word stop) (hused : cursor.HasUsed chars used) :
    words stop.advance.rest = (words chars).drop (used + 1) := by
  rw [← List.tail_drop, ← hused.words_rest, h.words_rest, List.tail_cons]

theorem Finds.hasUsed_stop {cursor stop : Cursor} {spaces word chars : List Char} {used : Nat}
    (h : cursor.Finds spaces word stop) (hused : cursor.HasUsed chars used) :
    stop.HasUsed chars (used + 1) :=
  ⟨h.standsIn_stop hused.standsIn,
    (words_tail h.isSpace_of_mem_head?).symm.trans (h.drop_succ_words hused)⟩

theorem Finds.hasUsed_advance {cursor stop : Cursor} {spaces word chars : List Char} {used : Nat}
    (h : cursor.Finds spaces word stop) (hused : cursor.HasUsed chars used) :
    stop.advance.HasUsed chars (used + 1) :=
  ⟨h.standsIn_advance hused.standsIn, h.drop_succ_words hused⟩

theorem HasUsed.succ_of_word?_eq_none {cursor : Cursor} {chars : List Char} {used : Nat}
    (h : cursor.HasUsed chars used) (hword : cursor.word? = none) :
    cursor.HasUsed chars (used + 1) := by
  have hnone : (words chars).drop used = [] :=
    h.words_rest.symm.trans (words_rest_of_word?_eq_none hword)
  refine ⟨h.standsIn, ?_⟩
  rw [← List.tail_drop, hnone, List.tail_nil, words_rest_of_word?_eq_none hword]

theorem suffix_of_at? {chars : List Char} {earlier later : Cursor}
    (hle : earlier.offset ≤ later.offset) (hearlier : at? chars earlier.offset = some earlier)
    (hlater : at? chars later.offset = some later) :
    later.rest <:+ earlier.rest := by
  obtain ⟨-, before, hchars, hbefore⟩ := at?_eq_some_iff.mp hearlier
  obtain ⟨-, before', hchars', hbefore'⟩ := at?_eq_some_iff.mp hlater
  obtain hsuffix | ⟨between, hbetween⟩ := List.suffix_or_suffix_of_suffix
    (⟨before', hchars'.symm⟩ : later.rest <:+ chars)
    (⟨before, hchars.symm⟩ : earlier.rest <:+ chars)
  · exact hsuffix
  · have hlength : byteLength (before ++ earlier.rest) = byteLength (before' ++ later.rest) := by
      rw [← hchars, ← hchars']
    rw [← hbetween, byteLength_append, byteLength_append, byteLength_append] at hlength
    have hnone : between = [] := not_not.mp (mt byteLength_pos (by omega))
    rw [← hbetween, hnone]
    exact List.suffix_rfl

end Cursor

theorem nextWord?_of_standsIn {text : String} {cursor : Cursor} (h : cursor.StandsIn text.toList) :
    nextWord? text cursor.offset = cursor.word?.map fun (word, stop) =>
      (String.ofList word, stop.offset) := by
  rw [nextWord?]
  obtain hat | ⟨hpast, hrest⟩ := h
  · rw [hat]
    rfl
  · rw [Cursor.at?_eq_none_of_lt hpast, Cursor.word?, hrest]
    rfl

theorem Cursor.HasUsed.nextWord?_eq {text : String} {cursor : Cursor} {used : Nat}
    (h : cursor.HasUsed text.toList used) :
    (nextWord? text cursor.offset).map Prod.fst =
      ((words text.toList).map String.ofList)[used]? := by
  rw [nextWord?_of_standsIn h.standsIn, List.getElem?_map, ← h.word?_eq, Option.map_map,
    Option.map_map]
  rfl

theorem Cursor.HasUsed.nextWord?_eq_none {text : String} {cursor : Cursor} {used offset : Nat}
    (h : cursor.HasUsed text.toList used) (hall : (words text.toList).length ≤ used)
    (hle : cursor.offset ≤ offset) :
    nextWord? text offset = none := by
  have hspaces : ∀ c ∈ cursor.rest, isSpace c = true :=
    isSpace_of_words_eq_nil (h.words_rest.trans (List.drop_eq_nil_iff.mpr hall))
  rw [nextWord?, Option.map_eq_none_iff]
  cases hat : Cursor.at? text.toList offset with
  | none => rfl
  | some later =>
    obtain rfl := (Cursor.at?_eq_some_iff.mp hat).1
    rw [Option.bind_some, Cursor.word?_eq_none_iff]
    obtain hearlier | ⟨hpast, -⟩ := h.standsIn
    · exact fun c hc => hspaces c ((Cursor.suffix_of_at? hle hearlier hat).subset hc)
    · rw [Cursor.at?_eq_none_of_lt (Nat.lt_of_lt_of_le hpast hle)] at hat
      cases hat

/-- Where the search goes on, with so many bytes left out behind each word. -/
def resumption (gap : Nat) (text : String) : Nat → Nat
  | 0 => 0
  | count + 1 =>
      match nextWord? text (resumption gap text count) with
      | some (_, stop) => stop + gap
      | none => resumption gap text count

theorem exists_hasUsed_resumption {gap : Nat} (hgap : gap ≤ 1) (text : String) (count : Nat) :
    ∃ cursor : Cursor, cursor.offset = resumption gap text count ∧
      cursor.HasUsed text.toList count := by
  induction count with
  | zero => exact ⟨.start text.toList, rfl, Cursor.hasUsed_start text.toList⟩
  | succ count ih =>
    obtain ⟨cursor, hoffset, hused⟩ := ih
    have hnext := nextWord?_of_standsIn hused.standsIn
    rw [resumption, ← hoffset, hnext]
    cases hword : cursor.word? with
    | none => exact ⟨cursor, rfl, hused.succ_of_word?_eq_none hword⟩
    | some found =>
      obtain ⟨word, stop⟩ := found
      obtain ⟨spaces, hfinds⟩ := Cursor.exists_finds_of_word? hword
      obtain rfl | rfl : gap = 0 ∨ gap = 1 := by omega
      · exact ⟨stop, rfl, hfinds.hasUsed_stop hused⟩
      · exact ⟨stop.advance, rfl, hfinds.hasUsed_advance hused⟩

/-- From every offset where a character begins the first word there is found, if there is one.
Repeated from behind each word this finds all words in order. -/
theorem nextWord?_finds_first (text : String) :
    (∀ offset, nextWord? text offset = none ↔
      ¬ ((⟨offset⟩ : String.Pos.Raw).IsValid text ∧ offset < text.utf8ByteSize) ∨
        ∃ before spaces : String, text = before ++ spaces ∧ before.utf8ByteSize = offset ∧
          ∀ c ∈ spaces.toList, c = ' ') ∧
      (∀ offset word stop, nextWord? text offset = some (word, stop) ↔
        FirstWordFrom text offset word stop) ∧
      (∀ offset word stop, nextWord? text offset = some (word, stop) →
        text.toByteArray.extract (stop - word.utf8ByteSize) stop = word.toByteArray) ∧
      ∀ gap ≤ 1,
        (∀ count, (nextWord? text (resumption gap text count)).map Prod.fst =
          ((words text.toList).map String.ofList)[count]?) ∧
        ∀ count offset, (words text.toList).length ≤ count → resumption gap text count ≤ offset →
          nextWord? text offset = none := by
  refine ⟨fun _ => nextWord?_eq_none_iff, fun _ _ _ => nextWord?_eq_some_iff,
    fun _ _ _ h => (nextWord?_eq_some_iff.mp h).extract_eq, fun gap hgap => ⟨fun count => ?_, ?_⟩⟩
  · obtain ⟨cursor, hoffset, hused⟩ := exists_hasUsed_resumption hgap text count
    rw [← hoffset, hused.nextWord?_eq]
  · intro count offset hall hle
    obtain ⟨cursor, hoffset, hused⟩ := exists_hasUsed_resumption hgap text count
    exact hused.nextWord?_eq_none hall (by rw [hoffset]; exact hle)

example : nextWord? " é  +1" 2 = none ∧ nextWord? " é  +1" 3 = some ("+1", 7) := by decide

end InfixArith.Text
