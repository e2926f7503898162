import InfixArith.Repl
import Mathlib.Data.List.Basic
import Mathlib.Data.List.Forall2
import Mathlib.Data.List.TakeWhile
import Mathlib.Data.String.Basic
/-!
# Lines of bytes

What the dialogue makes of its input before it answers. The input is cut just after each newline,
and a line is text if it is the UTF-8 form of one. A byte of a longer form is never one of ASCII, so
a newline or a carriage return at the end of a line is a character of its own, whatever stands
before it. That is why carriage returns before a newline change no expression, and why an expression
has no newline in it.
-/

namespace InfixArith.Repl

def carriageReturn : UInt8 := 13

/-! ### Cutting -/

/-- Cut just after each newline. What is left behind the last one is a line too. -/
inductive Lines : List UInt8 → List (List UInt8) → Prop
  | nil : Lines [] []
  | last {line : List UInt8} (hne : line ≠ []) (hline : newline ∉ line) : Lines line [line]
  | cons {body input : List UInt8} {lines : List (List UInt8)} (hbody : newline ∉ body)
      (hrest : Lines input lines) :
      Lines (body ++ newline :: input) ((body ++ [newline]) :: lines)

theorem splitLines_cons (byte : UInt8) (input : List UInt8) :
    splitLines (byte :: input) =
      if byte == newline then [byte] :: splitLines input
      else match splitLines input with
        | [] => [[byte]]
        | line :: lines => (byte :: line) :: lines := rfl

theorem splitLines_cons_of_ne {byte : UInt8} (h : byte ≠ newline) (input : List UInt8) :
    splitLines (byte :: input) =
      match splitLines input with
      | [] => [[byte]]
      | line :: lines => (byte :: line) :: lines := by
  rw [splitLines_cons, if_neg (by simpa using h)]

theorem lines_splitLines (input : List UInt8) : Lines input (splitLines input) := by
  induction input with
  | nil => exact .nil
  | cons byte input ih =>
    by_cases hbyte : byte = newline
    · subst hbyte
      exact .cons List.not_mem_nil ih
    · rw [splitLines_cons_of_ne hbyte]
      cases hlines : splitLines input with
      | nil =>
        rw [hlines] at ih
        cases ih
        exact .last (List.cons_ne_nil _ _) (by simpa using Ne.symm hbyte)
      | cons line lines =>
        rw [hlines] at ih
        cases ih with
        | last hne hline =>
            exact .last (List.cons_ne_nil _ _)
              (List.not_mem_cons_of_ne_of_not_mem (Ne.symm hbyte) hline)
        | cons hbody hrest =>
            exact .cons (List.not_mem_cons_of_ne_of_not_mem (Ne.symm hbyte) hbody) hrest

theorem splitLines_of_notMem {line : List UInt8} (hne : line ≠ []) (h : newline ∉ line) :
    splitLines line = [line] := by
  induction line with
  | nil => exact absurd rfl hne
  | cons byte line ih =>
    obtain ⟨hbyte, hline⟩ := List.ne_and_not_mem_of_not_mem_cons h
    rw [splitLines_cons_of_ne (Ne.symm hbyte)]
    by_cases hempty : line = []
    · subst hempty
      rfl
    · rw [ih hempty hline]

theorem splitLines_append {body : List UInt8} (h : newline ∉ body) (input : List UInt8) :
    splitLines (body ++ newline :: input) = (body ++ [newline]) :: splitLines input := by
  induction body with
  | nil => rfl
  | cons byte body ih =>
    obtain ⟨hbyte, hbody⟩ := List.ne_and_not_mem_of_not_mem_cons h
    rw [List.cons_append, splitLines_cons_of_ne (Ne.symm hbyte), ih hbody]
    rfl

theorem splitLines_eq_iff {input : List UInt8} {lines : List (List UInt8)} :
    splitLines input = lines ↔ Lines input lines := by
  constructor
  · intro h
    rw [← h]
    exact lines_splitLines input
  · intro h
    induction h with
    | nil => rfl
    | last hne hline => exact splitLines_of_notMem hne hline
    | cons hbody _ ih => rw [splitLines_append hbody, ih]

/-! ### Decoding -/

/-- The UTF-8 form of a text. -/
def encode (text : String) : List UInt8 := text.toList.flatMap String.utf8EncodeChar

theorem encode_eq (text : String) : encode text = text.toByteArray.data.toList := by
  rw [← String.utf8Encode_toList]
  exact List.toList_data_toByteArray.symm

theorem decodeLine?_eq_some_iff {line : List UInt8} {text : String} :
    decodeLine? line = some text ↔ encode text = line := by
  rw [encode_eq, decodeLine?, String.fromUTF8?]
  constructor
  · intro h
    split at h
    · cases h
      rfl
    · cases h
  · intro h
    subst h
    exact dif_pos text.isValidUTF8

theorem decodeLine?_encode (text : String) : decodeLine? (encode text) = some text :=
  decodeLine?_eq_some_iff.mpr rfl

theorem decodeLine?_eq_none_iff {line : List UInt8} :
    decodeLine? line = none ↔ ∀ text, encode text ≠ line := by
  simp only [Option.eq_none_iff_forall_ne_some, ne_eq, decodeLine?_eq_some_iff]

@[simp] theorem encode_push (text : String) (c : Char) :
    encode (text.push c) = encode text ++ String.utf8EncodeChar c := by
  simp only [encode, String.toList_push, List.flatMap_append, List.flatMap_singleton]

/-- A byte of ASCII ends a character only if it is all of it. -/
theorem utf8EncodeChar_of_getLast? {c : Char} {byte : UInt8} (hbyte : byte < 128)
    (h : (String.utf8EncodeChar c).getLast? = some byte) : String.utf8EncodeChar c = [byte] := by
  have hlarge : ∀ n : Nat, UInt8.ofNat (n % 64 + 128) ≠ byte := by
    rintro n rfl
    rw [UInt8.lt_iff_toNat_lt, UInt8.toNat_ofNat'] at hbyte
    have hvalue : (128 : UInt8).toNat = 128 := rfl
    omega
  unfold String.utf8EncodeChar at h ⊢
  dsimp only at h ⊢
  split at h
  next hsmall =>
    rw [if_pos hsmall]
    exact congrArg ([·]) (Option.some.inj h)
  · split at h
    · exact absurd (Option.some.inj h) (hlarge _)
    · split at h <;> exact absurd (Option.some.inj h) (hlarge _)

theorem utf8EncodeChar_injective {c d : Char}
    (h : String.utf8EncodeChar c = String.utf8EncodeChar d) : c = d := by
  have hsingle : encode (String.singleton c) = encode (String.singleton d) := by
    simpa [encode] using h
  have hdecode := decodeLine?_eq_some_iff.mpr hsingle
  rw [decodeLine?_encode] at hdecode
  simpa using (congrArg String.toList (Option.some.inj hdecode)).symm

theorem decodeLine?_concat {c : Char} {byte : UInt8} (hbyte : byte < 128)
    (hc : String.utf8EncodeChar c = [byte])
    (line : List UInt8) : decodeLine? (line ++ [byte]) = (decodeLine? line).map (·.push c) := by
  ext text
  rw [decodeLine?_eq_some_iff, Option.map_eq_some_iff]
  simp only [decodeLine?_eq_some_iff]
  constructor
  · intro h
    -- The last byte belongs to the last character, and so is all of it.
    obtain hnil | ⟨chars, last, hchars⟩ := List.eq_nil_or_concat' text.toList
    · rw [encode, hnil] at h
      exact absurd h.symm (List.append_ne_nil_of_right_ne_nil _ (List.cons_ne_nil _ _))
    · have htext : text = (String.ofList chars).push last := by
        apply String.ext
        rw [String.toList_push, String.toList_ofList, hchars]
      rw [htext, encode_push] at h
      have hlast : String.utf8EncodeChar last = [byte] := by
        apply utf8EncodeChar_of_getLast? hbyte
        have hne : String.utf8EncodeChar last ≠ [] := by
          apply List.ne_nil_of_length_pos
          rw [String.length_utf8EncodeChar]
          exact last.utf8Size_pos
        rw [← List.getLast?_append_of_ne_nil (encode (String.ofList chars)) hne, h]
        exact List.getLast?_concat
      rw [hlast] at h
      obtain rfl := utf8EncodeChar_injective (hlast.trans hc.symm)
      exact ⟨_, List.append_cancel_right h, htext.symm⟩
  · rintro ⟨own, hown, rfl⟩
    rw [encode_push, hown, hc]

/-! ### Expressions -/

def isLineEnd (c : Char) : Bool := c == '\n' || c == '\r'

theorem isLineEnd_iff {c : Char} : isLineEnd c = true ↔ c = '\n' ∨ c = '\r' := by simp [isLineEnd]

theorem expression_push {c : Char} (h : isLineEnd c = true) (text : String) :
    expression (text.push c) = expression text := by
  have hdrop : Text.dropTrailing isLineEnd (text.toList ++ [c]) =
      Text.dropTrailing isLineEnd text.toList := by
    rw [Text.dropTrailing, Text.dropTrailing, List.reverse_append, List.reverse_singleton,
      List.singleton_append, List.dropWhile_cons_of_pos h]
  rw [expression, String.toList_push]
  exact congrArg String.ofList hdrop

theorem exists_expression_append (text : String) :
    ∃ ends, text.toList = (expression text).toList ++ ends ∧ (∀ c ∈ ends, c = '\n' ∨ c = '\r') ∧
      ∀ c ∈ (expression text).toList.getLast?, c ≠ '\n' ∧ c ≠ '\r' := by
  have hexpression : (expression text).toList = Text.dropTrailing isLineEnd text.toList :=
    String.toList_ofList
  refine ⟨(text.toList.reverse.takeWhile isLineEnd).reverse, ?_, fun c hc => ?_, fun c hc => ?_⟩
  · rw [hexpression, Text.dropTrailing, ← List.reverse_append, List.takeWhile_append_dropWhile,
      List.reverse_reverse]
  · exact isLineEnd_iff.mp (List.mem_takeWhile_imp (List.mem_reverse.mp hc))
  · rw [hexpression] at hc
    rw [← not_or, ← isLineEnd_iff, Text.not_of_dropTrailing_getLast? hc]
    exact Bool.false_ne_true

theorem map_expression_decodeLine?_concat {byte : UInt8}
    (h : byte = newline ∨ byte = carriageReturn) (line : List UInt8) :
    (decodeLine? (line ++ [byte])).map expression = (decodeLine? line).map expression := by
  obtain ⟨c, hend, hc⟩ : ∃ c, isLineEnd c = true ∧ String.utf8EncodeChar c = [byte] := by
    obtain rfl | rfl := h
    · exact ⟨'\n', by decide, by decide⟩
    · exact ⟨'\r', by decide, by decide⟩
  have hbyte : byte < 128 := by
    obtain rfl | rfl := h <;> decide
  rw [decodeLine?_concat hbyte hc, Option.map_map]
  exact congrArg (Option.map · (decodeLine? line)) (funext (expression_push hend))

theorem map_expression_decodeLine?_returns (line : List UInt8) (count : Nat) :
    (decodeLine? (line ++ List.replicate count carriageReturn)).map expression =
      (decodeLine? line).map expression := by
  induction count with
  | zero => rw [List.replicate_zero, List.append_nil]
  | succ count ih =>
    rw [List.replicate_succ', ← List.append_assoc, map_expression_decodeLine?_concat (.inr rfl), ih]

theorem newline_mem_encode {text : String} (h : '\n' ∈ text.toList) : newline ∈ encode text :=
  List.mem_flatMap.mpr ⟨_, h, by decide⟩

theorem Lines.newline_notMem {input : List UInt8} {lines : List (List UInt8)}
    (h : Lines input lines) :
    ∀ line ∈ lines, newline ∉ line ∨ ∃ body, line = body ++ [newline] ∧ newline ∉ body := by
  induction h with
  | nil => exact nofun
  | last _ hline =>
    intro line hmem
    rw [List.mem_singleton.mp hmem]
    exact .inl hline
  | cons hbody _ ih =>
    intro line hmem
    obtain rfl | hmem := List.mem_cons.mp hmem
    · exact .inr ⟨_, rfl, hbody⟩
    · exact ih line hmem

theorem newline_notMem_expression_of_encode {text : String} (h : newline ∉ encode text) :
    '\n' ∉ (expression text).toList := by
  obtain ⟨ends, hends, -⟩ := exists_expression_append text
  intro hin
  apply h
  apply newline_mem_encode
  rw [hends]
  exact List.mem_append_left _ hin

theorem Lines.newline_notMem_expression {input : List UInt8} {lines : List (List UInt8)}
    (h : Lines input lines)
    {text : String} (hmem : encode text ∈ lines) : '\n' ∉ (expression text).toList := by
  obtain hline | ⟨body, hline, hbody⟩ := h.newline_notMem _ hmem
  · exact newline_notMem_expression_of_encode hline
  · have hsame := map_expression_decodeLine?_concat (.inl rfl) body
    rw [← hline, decodeLine?_encode, Option.map_some, eq_comm, Option.map_eq_some_iff] at hsame
    obtain ⟨own, hown, hexpression⟩ := hsame
    rw [← hexpression]
    rw [← decodeLine?_eq_some_iff.mp hown] at hbody
    exact newline_notMem_expression_of_encode hbody

/-! ### Carriage returns before newlines -/

/-- Carriage returns are added directly before some newlines. -/
inductive Returned : List UInt8 → List UInt8 → Prop
  | nil : Returned [] []
  | keep {input input' : List UInt8} (byte : UInt8) (h : Returned input input') :
      Returned (byte :: input) (byte :: input')
  | add {input input' : List UInt8} (count : Nat) (h : Returned input input') :
      Returned (newline :: input) (List.replicate count carriageReturn ++ newline :: input')

theorem Returned.append {body rest input' : List UInt8} (h : Returned (body ++ rest) input')
    (hbody : newline ∉ body) :
    ∃ rest', input' = body ++ rest' ∧ Returned rest rest' := by
  induction body generalizing input' with
  | nil => exact ⟨input', rfl, h⟩
  | cons byte body ih =>
    obtain ⟨hbyte, hbody⟩ := List.ne_and_not_mem_of_not_mem_cons hbody
    cases h with
    | keep _ h =>
      obtain ⟨rest', rfl, hrest⟩ := ih h hbody
      exact ⟨rest', rfl, hrest⟩
    | add count h => exact absurd rfl hbyte

theorem Returned.newline {rest input' : List UInt8} (h : Returned (newline :: rest) input') :
    ∃ count rest', input' = List.replicate count carriageReturn ++ Repl.newline :: rest' ∧
      Returned rest rest' := by
  cases h with
  | keep _ h => exact ⟨0, _, rfl, h⟩
  | add count h => exact ⟨count, _, rfl, h⟩

/-- The lines change only behind their expressions. -/
theorem Lines.returned {input input' : List UInt8} {lines : List (List UInt8)}
    (h : Lines input lines) (hreturned : Returned input input') :
    ∃ lines', Lines input' lines' ∧
      List.Forall₂ (fun line line' => (decodeLine? line).map expression =
        (decodeLine? line').map expression)
        lines lines' := by
  induction h generalizing input' with
  | nil =>
    cases hreturned
    exact ⟨[], .nil, .nil⟩
  | @last line hne hline =>
    rw [← List.append_nil line] at hreturned
    obtain ⟨rest', rfl, hrest⟩ := hreturned.append hline
    cases hrest
    rw [List.append_nil]
    exact ⟨[line], .last hne hline, .cons rfl .nil⟩
  | @cons body input lines hbody _ ih =>
    -- The body is kept byte for byte, so the cut comes behind the same newline.
    obtain ⟨rest', rfl, hrest⟩ := hreturned.append hbody
    obtain ⟨count, behind, rfl, hbehind⟩ := hrest.newline
    obtain ⟨lines', hlines', hsame⟩ := ih hbehind
    have hnewline : Repl.newline ∉ body ++ List.replicate count carriageReturn := by
      intro hin
      obtain hin | hin := List.mem_append.mp hin
      · exact hbody hin
      · cases List.eq_of_mem_replicate hin
    refine ⟨_, List.append_assoc body _ _ ▸ hlines'.cons hnewline, .cons ?_ hsame⟩
    rw [map_expression_decodeLine?_concat (.inl rfl), map_expression_decodeLine?_concat (.inl rfl),
      map_expression_decodeLine?_returns]

end InfixArith.Repl
