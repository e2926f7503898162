import InfixArith.Text.Cursor
import Mathlib.Data.List.Basic
import Mathlib.Data.List.TakeWhile
/-!
# Words behind a cursor

A space ends the words before it and begins none, so the words of a text with a space in it are
those of the part before and those of the part behind. With that, the words from a cursor on are the
one that it finds and the words behind the space that ends it.
-/

namespace InfixArith.Text

theorem isSpace_iff {c : Char} : isSpace c = true ↔ c = ' ' := beq_iff_eq

/-- Words are the parts between the spaces, less the empty ones. -/
theorem words_eq_filter_splitOnP (chars : List Char) :
    words chars = (chars.splitOnP isSpace).filter (· ≠ []) := by
  rw [words]
  congr 1
  induction chars with
  | nil => rfl
  | cons c chars ih =>
    rw [List.foldr_cons, ih, List.splitOnP_cons_eq_if_modifyHead]
    split
    · rfl
    · obtain ⟨part, parts, hparts⟩ :=
        List.exists_cons_of_ne_nil (List.splitOnP_ne_nil isSpace chars)
      rw [hparts]
      rfl

@[simp] theorem words_nil : words [] = [] := rfl

theorem words_append_space {space : Char} (hspace : isSpace space = true)
    (before behind : List Char) :
    words (before ++ space :: behind) = words before ++ words behind := by
  simp only [words_eq_filter_splitOnP, List.splitOnP_append_cons before behind hspace,
    List.filter_append]

theorem words_of_no_space {word : List Char} (hne : word ≠ []) (h : ∀ c ∈ word, isSpace c = false) :
    words word = [word] := by
  rw [words_eq_filter_splitOnP, List.splitOnP_eq_singleton h]
  exact List.filter_cons_of_pos (decide_eq_true hne)

theorem words_spaces_append {spaces : List Char} (h : ∀ c ∈ spaces, isSpace c = true)
    (chars : List Char) :
    words (spaces ++ chars) = words chars := by
  induction spaces with
  | nil => rfl
  | cons space spaces ih =>
    have hwords := words_append_space (h space List.mem_cons_self) [] (spaces ++ chars)
    rw [words_nil, List.nil_append, List.nil_append] at hwords
    rw [List.cons_append, hwords, ih fun c hc => h c (List.mem_cons_of_mem _ hc)]

theorem words_of_spaces {spaces : List Char} (h : ∀ c ∈ spaces, isSpace c = true) :
    words spaces = [] := by
  have hwords := words_spaces_append h []
  rwa [List.append_nil, words_nil] at hwords

theorem words_append_spaces {spaces : List Char} (h : ∀ c ∈ spaces, isSpace c = true)
    (chars : List Char) :
    words (chars ++ spaces) = words chars := by
  cases spaces with
  | nil => rw [List.append_nil]
  | cons space spaces =>
    rw [words_append_space (h space List.mem_cons_self),
      words_of_spaces fun c hc => h c (List.mem_cons_of_mem _ hc), List.append_nil]

theorem words_intercalate {ws : List (List Char)} (hne : ∀ word ∈ ws, word ≠ [])
    (hword : ∀ word ∈ ws, ' ' ∉ word) :
    words ([' '].intercalate ws) = ws := by
  by_cases hempty : ws = []
  · rw [hempty]
    rfl
  · have hsplit : ([' '].intercalate ws).splitOnP isSpace = ws :=
      List.splitOn_intercalate ' ' hword hempty
    rw [words_eq_filter_splitOnP, hsplit, List.filter_eq_self]
    exact fun word hmem => decide_eq_true (hne word hmem)

theorem words_tail {chars : List Char} (h : ∀ c ∈ chars.head?, isSpace c = true) :
    words chars.tail = words chars := by
  cases chars with
  | nil => rfl
  | cons space chars =>
    have hspaces : ∀ c ∈ [space], isSpace c = true := by simpa using h
    exact (words_spaces_append hspaces chars).symm

theorem words_word_append {word behind : List Char} (hne : word ≠ [])
    (hword : ∀ c ∈ word, isSpace c = false) (hbehind : ∀ c ∈ behind.head?, isSpace c = true) :
    words (word ++ behind) = word :: words behind := by
  rw [← words_tail hbehind]
  cases behind with
  | nil => rw [List.append_nil, words_of_no_space hne hword, List.tail_nil, words_nil]
  | cons space behind =>
    have hspace : isSpace space = true := hbehind space rfl
    rw [words_append_space hspace, words_of_no_space hne hword, List.tail_cons,
      List.singleton_append]

theorem words_append_of_getLast? {before : List Char} (h : ∀ c ∈ before.getLast?, isSpace c = true)
    (behind : List Char) : words (before ++ behind) = words before ++ words behind := by
  obtain rfl | ⟨init, space, rfl⟩ := List.eq_nil_or_concat' before
  · rfl
  · have hspace : isSpace space = true := h space (by simp)
    have hinit := words_append_space hspace init []
    rw [List.append_assoc, List.singleton_append, words_append_space hspace, hinit, words_nil,
      List.append_nil]

/-! ### A text cut around a word -/

/-- A word of the text, with this text before it and that behind. -/
structure CutAround (chars before word behind : List Char) : Prop where
  chars_eq : chars = before ++ (word ++ behind)
  word_ne_nil : word ≠ []
  isSpace_of_mem_word : ∀ c ∈ word, isSpace c = false
  isSpace_of_mem_getLast? : ∀ c ∈ before.getLast?, isSpace c = true
  isSpace_of_mem_head? : ∀ c ∈ behind.head?, isSpace c = true

theorem CutAround.words_eq {chars before word behind : List Char}
    (h : CutAround chars before word behind) :
    words chars = words before ++ word :: words behind := by
  rw [h.chars_eq, words_append_of_getLast? h.isSpace_of_mem_getLast?,
    words_word_append h.word_ne_nil h.isSpace_of_mem_word h.isSpace_of_mem_head?]

namespace Cursor

/-- Only spaces are before the word, and it ends at a space or at the end. -/
structure Finds (cursor : Cursor) (spaces word : List Char) (stop : Cursor) : Prop where
  rest_eq : cursor.rest = spaces ++ (word ++ stop.rest)
  offset_eq : stop.offset = cursor.offset + byteLength spaces + byteLength word
  isSpace_of_mem_spaces : ∀ c ∈ spaces, isSpace c = true
  word_ne_nil : word ≠ []
  isSpace_of_mem_word : ∀ c ∈ word, isSpace c = false
  isSpace_of_mem_head? : ∀ c ∈ stop.rest.head?, isSpace c = true

theorem Finds.rest_ne_nil {cursor stop : Cursor} {spaces word : List Char}
    (h : cursor.Finds spaces word stop) :
    cursor.rest ≠ [] := by
  rw [h.rest_eq]
  exact List.append_ne_nil_of_right_ne_nil _ (List.append_ne_nil_of_left_ne_nil h.word_ne_nil _)

theorem exists_finds_of_word? {cursor stop : Cursor} {word : List Char}
    (h : cursor.word? = some (word, stop)) : ∃ spaces, cursor.Finds spaces word stop := by
  simp only [word?] at h
  split at h
  · cases h
  next hword =>
    obtain ⟨rfl, rfl⟩ := Prod.mk.inj (Option.some.inj h)
    refine ⟨cursor.rest.takeWhile isSpace, ?_, rfl, ?_, hword, ?_, ?_⟩
    · rw [List.takeWhile_append_dropWhile, List.takeWhile_append_dropWhile]
    · exact fun c hc => List.mem_takeWhile_imp hc
    · intro c hc
      have hnot := List.mem_takeWhile_imp hc
      simpa using hnot
    · intro c hc
      have hstop := List.head?_dropWhile_not (!isSpace ·) (cursor.rest.dropWhile isSpace)
      rw [hc] at hstop
      simpa using hstop

theorem isSpace_of_word?_eq_none {cursor : Cursor} (h : cursor.word? = none) :
    ∀ c ∈ cursor.rest, isSpace c = true := by
  rw [← List.dropWhile_eq_nil_iff]
  simp only [word?] at h
  split at h
  next hword =>
    by_contra hne
    obtain ⟨c, chars, hrest⟩ := List.exists_cons_of_ne_nil hne
    have hc := List.head?_dropWhile_not isSpace cursor.rest
    rw [hrest] at hword hc
    rw [List.takeWhile_cons_of_pos (by simpa using hc)] at hword
    exact List.cons_ne_nil _ _ hword
  · cases h

theorem words_rest_of_word?_eq_none {cursor : Cursor} (h : cursor.word? = none) :
    words cursor.rest = [] :=
  words_of_spaces (isSpace_of_word?_eq_none h)

theorem Finds.words_rest {cursor stop : Cursor} {spaces word : List Char}
    (h : cursor.Finds spaces word stop) : words cursor.rest = word :: words stop.advance.rest := by
  rw [h.rest_eq, words_spaces_append h.isSpace_of_mem_spaces,
    words_word_append h.word_ne_nil h.isSpace_of_mem_word h.isSpace_of_mem_head?, advance,
    words_tail h.isSpace_of_mem_head?]

end Cursor

theorem exists_cutAround_first {chars first : List Char} {others : List (List Char)}
    (h : words chars = first :: others) :
    ∃ spaces behind, CutAround chars spaces first behind ∧ words spaces = [] ∧
      words behind = others := by
  cases hfound : (Cursor.start chars).word? with
  | none =>
    have hnone : words chars = [] := Cursor.words_rest_of_word?_eq_none hfound
    rw [hnone] at h
    cases h
  | some found =>
    obtain ⟨word, stop⟩ := found
    obtain ⟨spaces, hfinds⟩ := Cursor.exists_finds_of_word? hfound
    have hspaces : words spaces = [] := words_of_spaces hfinds.isSpace_of_mem_spaces
    have hcut : CutAround chars spaces word stop.rest :=
      ⟨hfinds.rest_eq, hfinds.word_ne_nil, hfinds.isSpace_of_mem_word,
        fun c hc => hfinds.isSpace_of_mem_spaces c (List.mem_of_getLast? hc),
        hfinds.isSpace_of_mem_head?⟩
    have hwords := hcut.words_eq
    rw [hspaces, h] at hwords
    obtain ⟨rfl, hothers⟩ := List.cons.inj hwords
    exact ⟨spaces, stop.rest, hcut, hspaces, hothers.symm⟩

theorem CutAround.append {chars before own rest between word behind : List Char}
    (hown : CutAround chars before own rest) (hword : CutAround rest between word behind) :
    CutAround chars (before ++ (own ++ between)) word behind ∧
      words (before ++ (own ++ between)) = words before ++ own :: words between := by
  have hne : between ≠ [] := by
    rintro rfl
    obtain ⟨c, chars, rfl⟩ := List.exists_cons_of_ne_nil hword.word_ne_nil
    have hspace := hown.isSpace_of_mem_head? c (by rw [hword.chars_eq]; rfl)
    rw [hword.isSpace_of_mem_word c List.mem_cons_self] at hspace
    cases hspace
  have hhead : ∀ c ∈ between.head?, isSpace c = true := by
    intro c hc
    apply hown.isSpace_of_mem_head?
    rw [hword.chars_eq]
    exact List.mem_head?_append_of_mem_head? hc
  have hinner : CutAround (before ++ (own ++ between)) before own between :=
    ⟨rfl, hown.word_ne_nil, hown.isSpace_of_mem_word, hown.isSpace_of_mem_getLast?, hhead⟩
  refine ⟨⟨?_, hword.word_ne_nil, hword.isSpace_of_mem_word, ?_, hword.isSpace_of_mem_head?⟩,
    hinner.words_eq⟩
  · rw [hown.chars_eq, hword.chars_eq]
    simp only [List.append_assoc]
  · intro c hc
    apply hword.isSpace_of_mem_getLast?
    rwa [List.getLast?_append_of_ne_nil _ (List.append_ne_nil_of_right_ne_nil _ hne),
      List.getLast?_append_of_ne_nil _ hne] at hc

/-- Where a list of words is cut around one of them, the text can be. -/
theorem exists_cutAround_of_words {chars word : List Char} {used rest : List (List Char)}
    (h : words chars = used ++ word :: rest) :
    ∃ before behind, CutAround chars before word behind ∧ words before = used := by
  induction used generalizing chars with
  | nil =>
    obtain ⟨spaces, behind, hcut, hspaces, -⟩ := exists_cutAround_first h
    exact ⟨spaces, behind, hcut, hspaces⟩
  | cons own used ih =>
    obtain ⟨spaces, others, hown, hspaces, hothers⟩ := exists_cutAround_first h
    obtain ⟨between, behind, hword, hbetween⟩ := ih hothers
    obtain ⟨hcut, hwords⟩ := hown.append hword
    refine ⟨_, behind, hcut, ?_⟩
    rw [hwords, hspaces, hbetween, List.nil_append]

theorem isSpace_of_words_eq_nil {chars : List Char} (h : words chars = []) :
    ∀ c ∈ chars, isSpace c = true := by
  cases hfound : (Cursor.start chars).word? with
  | none => exact Cursor.isSpace_of_word?_eq_none hfound
  | some found =>
    obtain ⟨word, stop⟩ := found
    obtain ⟨spaces, hfinds⟩ := Cursor.exists_finds_of_word? hfound
    have hwords : words chars = word :: words stop.advance.rest := hfinds.words_rest
    rw [h] at hwords
    cases hwords

theorem CutAround.length_words_lt {chars before word behind more word' behind' : List Char}
    (h : CutAround chars before word behind) (h' : CutAround chars (before ++ more) word' behind')
    (hne : more ≠ []) :
    (words before).length < (words (before ++ more)).length := by
  obtain ⟨c, more, rfl⟩ := List.exists_cons_of_ne_nil hne
  have hrest : word ++ behind = c :: more ++ (word' ++ behind') := by
    have hchars := h.chars_eq.symm.trans h'.chars_eq
    rw [List.append_assoc] at hchars
    exact List.append_cancel_left hchars
  have hc : isSpace c = false := by
    obtain ⟨first, rest, rfl⟩ := List.exists_cons_of_ne_nil h.word_ne_nil
    obtain ⟨hfirst, -⟩ := List.cons.inj hrest
    rw [← hfirst]
    exact h.isSpace_of_mem_word first List.mem_cons_self
  have hmore : words (c :: more) ≠ [] := by
    intro hnone
    rw [isSpace_of_words_eq_nil hnone c List.mem_cons_self] at hc
    cases hc
  have hpos := List.length_pos_iff.mpr hmore
  rw [words_append_of_getLast? h.isSpace_of_mem_getLast?, List.length_append]
  omega

theorem CutAround.unique {chars before word behind before' word' behind' : List Char}
    (h : CutAround chars before word behind) (h' : CutAround chars before' word' behind')
    (hlength : (words before).length = (words before').length) :
    before = before' ∧ word = word' ∧ behind = behind' := by
  have hbefore : before = before' := by
    rcases List.prefix_or_prefix_of_prefix ⟨_, h.chars_eq.symm⟩ ⟨_, h'.chars_eq.symm⟩ with
      ⟨more, rfl⟩ | ⟨more, rfl⟩
    · by_contra hne
      have hlt := h.length_words_lt h' (by simpa using hne)
      omega
    · by_contra hne
      have hlt := h'.length_words_lt h (by simpa using hne)
      omega
  subst hbefore
  have hrest : word ++ behind = word' ++ behind' :=
    List.append_cancel_left (h.chars_eq.symm.trans h'.chars_eq)
  have htake : ∀ {word behind : List Char}, CutAround chars before word behind →
      (word ++ behind).takeWhile (!isSpace ·) = word := by
    intro word behind hcut
    rw [List.takeWhile_append_of_pos fun c hc => by simp [hcut.isSpace_of_mem_word c hc]]
    cases hbehind : behind with
    | nil => simp
    | cons space behind =>
      have hspace := hcut.isSpace_of_mem_head? space (by simp [hbehind])
      simp [hspace]
  have hword : word = word' := by rw [← htake h, hrest, htake h']
  subst hword
  exact ⟨rfl, rfl, List.append_cancel_left hrest⟩

end InfixArith.Text
