import InfixArith.Proofs.Lines
import InfixArith.Proofs.Modes
import InfixArith.Proofs.Numerals
/-!
# Whole dialogues

A dialogue is its banner, then a prompt and an answer for each line, and a last prompt: the one
behind which the input ends, or the one for the first line that is no text. Each answer is one line
of its own, since what an error quotes is part of the expression and an expression has no newline in
it.
-/

namespace InfixArith

open Text (words)

/-! ### What an error quotes -/

theorem newline_notMem_append {left right : String} (hleft : '\n' ∉ left.toList)
    (hright : '\n' ∉ right.toList) :
    '\n' ∉ (left ++ right).toList := by
  rw [String.toList_append, List.mem_append]
  exact not_or.mpr ⟨hleft, hright⟩

namespace Error

/-- The characters of an error that come from the text. -/
def quoted : Error → List Char
  | unknownOperator glyph => [glyph]
  | notANumber word => word.toList
  | _ => []

theorem newline_notMem_message {error : Error} (h : '\n' ∉ error.quoted) :
    '\n' ∉ error.message.toList := by
  cases error with
  | unknownOperator glyph =>
    have hglyph : '\n' ∉ glyph.toString.toList := by
      rw [Char.toString_eq_singleton, String.toList_singleton]
      exact h
    exact newline_notMem_append (newline_notMem_append (by decide) hglyph) (by decide)
  | notANumber word => exact newline_notMem_append h (by decide)
  | operandIsOperator => decide
  | numberIsNoOperator => decide
  | missingOperand => decide

end Error

theorem Text.subset_of_mem_words {chars word : List Char} (h : word ∈ words chars) :
    word ⊆ chars := by
  obtain ⟨used, rest, hwords⟩ := List.append_of_mem h
  obtain ⟨before, behind, hcut, -⟩ := exists_cutAround_of_words hwords
  rw [hcut.chars_eq]
  exact fun c hc => List.mem_append_right _ (List.mem_append_left _ hc)

section Errors

variable {α : Type} [Number α]

omit [Number α] in
theorem Turn.quoted_of_ending {mode : Mode} {turn : Turn} {word : List Char} {error : Error}
    (h : (turn.ending mode word : Except Error (List (Symbol α))) = .error error) :
    error.quoted = word := by
  unfold ending at h
  split at h
  · cases mode with
    | strict =>
      cases h
      exact String.toList_ofList
    | lenient => cases h
  · cases h
    rfl
  · cases h

theorem quoted_mem_of_readWords {mode : Mode} {turn : Turn} {ws : List (List Char)} {error : Error}
    (h : (readWords mode turn ws : Except Error (List (Symbol α))) = .error error) :
    error.quoted ∈ ws := by
  induction ws generalizing turn with
  | nil => cases turn <;> cases h
  | cons word ws ih =>
    rw [readWords_cons] at h
    split at h
    · exact List.mem_cons_of_mem _ (ih (map_eq_error_iff.mp h))
    · rw [Turn.quoted_of_ending h]
      exact List.mem_cons_self

theorem quoted_subset_of_evaluateIn {mode : Mode} {text : String} {error : Error}
    (h : ((evaluateIn mode text).value : Except Error α) = .error error) :
    error.quoted ⊆ text.toList := by
  obtain hparse | ⟨t, -, hevaluate⟩ :=
    bind_eq_error_iff.mp ((value_evaluateIn mode text).symm.trans h)
  · rw [value_parse, map_eq_error_iff] at hparse
    exact Text.subset_of_mem_words (quoted_mem_of_readWords hparse)
  · rw [Tree.eq_missingOperand_of_evaluate hevaluate]
    exact List.nil_subset _

end Errors

namespace Repl

theorem banner_eq : banner = "Example: \n: 1 + 2 + 3 * 4\n=> 15\n" := by
  rw [banner, Tree.listing_eq_symbols, Tree.evaluate_eq_operandValue (by decide)]
  decide +kernel

theorem mode_eq_lenient_iff {arguments : List String} :
    mode arguments = .lenient ↔ "--lenient" ∈ arguments := by
  simp [mode]

/-! ### One answer -/

theorem newline_notMem_write (value : Float) : '\n' ∉ (Number.write value).toList := by
  intro h
  obtain hdigit | hmark := BinaryFormat.isDigit_of_mem_writeBits h
  · cases hdigit
  · revert hmark
    decide

/-- An answer is one line. -/
theorem exists_answer_eq {text : String} (h : '\n' ∉ (expression text).toList) (mode : Mode) :
    ∃ reply, (answer mode text).value = reply ++ "\n" ∧ '\n' ∉ reply.toList ∧
      (∀ value : Float, (parse mode (expression text)).value.bind Tree.evaluate = .ok value →
        reply = "=> " ++ Number.write value) ∧
      ∀ error, ((parse mode (expression text)).value.bind Tree.evaluate : Except Error Float) =
        .error error →
        reply = "Error: " ++ error.message := by
  have hanswer : (answer mode text).value =
      answerLine (evaluateIn mode (expression text)).value := by
    rw [answer]
  rw [hanswer, value_evaluateIn]
  cases hresult : ((parse mode (expression text)).value.bind Tree.evaluate :
    Except Error Float) with
  | ok value =>
    refine ⟨"=> " ++ Number.write value, rfl, ?_, ?_, nofun⟩
    · exact newline_notMem_append (by decide) (newline_notMem_write value)
    · rintro _ ⟨⟩
      rfl
  | error error =>
    have hquoted : '\n' ∉ error.quoted := fun hin =>
      h (quoted_subset_of_evaluateIn ((value_evaluateIn mode (expression text)).trans hresult) hin)
    refine ⟨"Error: " ++ error.message, rfl, ?_, nofun, ?_⟩
    · exact newline_notMem_append (by decide) (Error.newline_notMem_message hquoted)
    · rintro _ ⟨⟩
      rfl

/-! ### All answers -/

def exchange (mode : Mode) (text : String) : String := prompt ++ (answer mode text).value

def exchanges (mode : Mode) (texts : List String) : String :=
  String.join (texts.map (exchange mode))

theorem exchanges_cons (mode : Mode) (text : String) (texts : List String) :
    exchanges mode (text :: texts) = exchange mode text ++ exchanges mode texts := String.join_cons

theorem converse_encode_cons (text : String) (mode : Mode) (output : String)
    (lines : List (List UInt8)) :
    converse mode output (encode text :: lines) =
      converse mode (output ++ exchange mode text) lines := by
  have hreply : reply mode (encode text :: lines).head? = .answered (answer mode text) := by
    rw [List.head?_cons, reply, decodeLine?_encode]
  rw [converse_of_answered hreply, exchange, String.append_assoc, List.tail_cons]

theorem converse_cons_of_eq_none {line : List UInt8} (h : decodeLine? line = none) (mode : Mode)
    (output : String) (lines : List (List UInt8)) :
    converse mode output (line :: lines) = ⟨output ++ prompt, 1⟩ := by
  apply converse_of_closed
  rw [List.head?_cons, reply, h]

theorem converse_append (texts : List String) (mode : Mode) (output : String)
    (rest : List (List UInt8)) :
    converse mode output (texts.map encode ++ rest) =
      converse mode (output ++ exchanges mode texts) rest := by
  induction texts generalizing output with
  | nil => exact congrArg (converse mode · rest) (String.append_empty).symm
  | cons text texts ih =>
    rw [List.map_cons, List.cons_append, converse_encode_cons, ih, exchanges_cons,
      String.append_assoc]

theorem exists_eq_map_encode_append (lines : List (List UInt8)) :
    ∃ (texts : List String) (rest : List (List UInt8)), lines = texts.map encode ++ rest ∧
      ∀ bad ∈ rest.head?, decodeLine? bad = none := by
  induction lines with
  | nil => exact ⟨[], [], rfl, nofun⟩
  | cons line lines ih =>
    cases htext : decodeLine? line with
    | none =>
      refine ⟨[], line :: lines, rfl, fun bad hbad => ?_⟩
      cases hbad
      exact htext
    | some text =>
      obtain ⟨texts, rest, rfl, hrest⟩ := ih
      refine ⟨text :: texts, rest, ?_, hrest⟩
      rw [List.map_cons, decodeLine?_eq_some_iff.mp htext, List.cons_append]

/-- Only the expressions of the lines matter. -/
theorem converse_congr {lines lines' : List (List UInt8)}
    (h : List.Forall₂
      (fun line line' => (decodeLine? line).map expression = (decodeLine? line').map expression)
      lines lines') (mode : Mode) (output : String) :
    converse mode output lines = converse mode output lines' := by
  induction h generalizing output with
  | nil => rfl
  | @cons line line' _ _ hline _ ih =>
    cases htext : decodeLine? line with
    | none =>
      rw [htext, Option.map_none, eq_comm, Option.map_eq_none_iff] at hline
      rw [converse_cons_of_eq_none htext, converse_cons_of_eq_none hline]
    | some text =>
      rw [htext, Option.map_some, eq_comm, Option.map_eq_some_iff] at hline
      obtain ⟨text', htext', hexpression⟩ := hline
      obtain rfl := decodeLine?_eq_some_iff.mp htext
      obtain rfl := decodeLine?_eq_some_iff.mp htext'
      have hexchange : exchange mode text = exchange mode text' := by
        simp only [exchange, answer, hexpression]
      rw [converse_encode_cons, converse_encode_cons, hexchange, ih]

theorem count_exchanges {texts : List String} (h : ∀ text ∈ texts, '\n' ∉ (expression text).toList)
    (mode : Mode) :
    (exchanges mode texts).toList.count '\n' = texts.length := by
  induction texts with
  | nil => rfl
  | cons text texts ih =>
    obtain ⟨htext, htexts⟩ := List.forall_mem_cons.mp h
    obtain ⟨reply, hanswer, hreply, -⟩ := exists_answer_eq htext mode
    have hprompt : prompt.toList.count '\n' = 0 := by decide
    have hnewline : "\n".toList.count '\n' = 1 := by decide
    rw [exchanges_cons, exchange, hanswer]
    simp only [String.toList_append, List.count_append, List.count_eq_zero_of_not_mem hreply,
      hprompt, hnewline, ih htexts, List.length_cons]
    omega

theorem run_eq {texts : List String} {rest : List (List UInt8)} {input : List UInt8}
    (hlines : splitLines input = texts.map encode ++ rest)
    (hrest : ∀ bad ∈ rest.head?, decodeLine? bad = none) (arguments : List String) :
    run arguments input =
      ⟨banner ++ exchanges (mode arguments) texts ++ prompt, if rest = [] then 0 else 1⟩ := by
  rw [run, hlines, converse_append]
  cases rest with
  | nil => exact converse_of_closed rfl _
  | cons bad after =>
    rw [converse_cons_of_eq_none (hrest bad rfl)]
    rfl

theorem count_run {texts : List String} {input : List UInt8}
    (hlines : splitLines input = texts.map encode) (arguments : List String) :
    (run arguments input).output.toList.count '\n' = 3 + texts.length := by
  have hexpressions : ∀ text ∈ texts, '\n' ∉ (expression text).toList := by
    intro text htext
    apply (lines_splitLines input).newline_notMem_expression
    rw [hlines]
    exact List.mem_map_of_mem htext
  have hbanner : banner.toList.count '\n' = 3 := by
    rw [banner_eq]
    decide
  have hprompt : prompt.toList.count '\n' = 0 := by decide
  have hall : splitLines input = texts.map encode ++ [] := by rw [hlines, List.append_nil]
  rw [run_eq hall nofun]
  simp only [String.toList_append, List.count_append, hbanner, hprompt,
    count_exchanges hexpressions, Nat.add_zero]

/-- Each line up to the first that is not UTF-8 is answered by one line of its own, behind the
banner. Carriage returns before newlines count for nothing. -/
theorem run_dialogue (arguments : List String) (input : List UInt8) :
    (mode arguments = .lenient ↔ "--lenient" ∈ arguments) ∧
      banner = "Example: \n: 1 + 2 + 3 * 4\n=> 15\n" ∧
      Lines input (splitLines input) ∧
      (∃ (texts : List String) (rest : List (List UInt8)),
        splitLines input = texts.map encode ++ rest ∧
        (∀ bad ∈ rest.head?, ∀ text, encode text ≠ bad) ∧
        run arguments input =
          ⟨banner ++
              String.join (texts.map fun text => prompt ++ (answer (mode arguments) text).value) ++
              prompt,
            if rest = [] then 0 else 1⟩) ∧
      (∀ texts : List String, splitLines input = texts.map encode →
        (run arguments input).exitCode = 0 ∧
          (run arguments input).output.toList.count '\n' = 3 + texts.length) ∧
      (∀ text, encode text ∈ splitLines input →
        (∃ reply, (answer (mode arguments) text).value = reply ++ "\n" ∧ '\n' ∉ reply.toList ∧
          (∀ value : Float,
            (parse (mode arguments) (expression text)).value.bind Tree.evaluate = .ok value →
              reply = "=> " ++ Number.write value) ∧
          ∀ error,
            ((parse (mode arguments) (expression text)).value.bind Tree.evaluate :
              Except Error Float) = .error error →
              reply = "Error: " ++ error.message) ∧
        ∃ ends, text.toList = (expression text).toList ++ ends ∧ (∀ c ∈ ends, c = '\n' ∨ c = '\r') ∧
          ∀ c ∈ (expression text).toList.getLast?, c ≠ '\n' ∧ c ≠ '\r') ∧
      ∀ input', Returned input input' → run arguments input' = run arguments input := by
  have hlines := lines_splitLines input
  refine ⟨mode_eq_lenient_iff, banner_eq, hlines, ?_,
    fun texts htexts => ⟨?_, count_run htexts arguments⟩,
    fun text htext => ⟨exists_answer_eq (hlines.newline_notMem_expression htext) _,
      exists_expression_append text⟩,
    fun input' hreturned => ?_⟩
  · obtain ⟨texts, rest, hcut, hrest⟩ := exists_eq_map_encode_append (splitLines input)
    refine ⟨texts, rest, hcut, fun bad hbad => ?_, run_eq hcut hrest arguments⟩
    exact decodeLine?_eq_none_iff.mp (hrest bad hbad)
  · have hall : splitLines input = texts.map encode ++ [] := by rw [htexts, List.append_nil]
    rw [run_eq hall nofun, if_pos rfl]
  · obtain ⟨lines', hlines', hsame⟩ := hlines.returned hreturned
    rw [run, run, splitLines_eq_iff.mpr hlines', converse_congr hsame]

/-- A number and a letter, and three carriage returns put before the newlines. -/
theorem run_dialogue_letter :
    (splitLines [49, 10, 120, 10] = ["1\n", "x\n"].map encode ∧
      (run [] [49, 10, 120, 10]).exitCode = 0 ∧
        (run [] [49, 10, 120, 10]).output.toList.count '\n' = 5) ∧
      (encode "1\n" ∈ splitLines [49, 10, 120, 10] ∧
        (parse (mode []) (expression "1\n")).value.bind Tree.evaluate = .ok (1 : Float) ∧
        (answer (mode []) "1\n").value = "=> " ++ Number.write (1 : Float) ++ "\n") ∧
      (encode "x\n" ∈ splitLines [49, 10, 120, 10] ∧
        ((parse (mode []) (expression "x\n")).value.bind Tree.evaluate : Except Error Float) =
          .error (.notANumber "x") ∧
        (answer (mode []) "x\n").value = "Error: " ++ (Error.notANumber "x").message ++ "\n") ∧
      Returned [49, 10, 120, 10] [49, 13, 13, 10, 120, 13, 10] ∧
      run [] [49, 13, 13, 10, 120, 13, 10] = run [] [49, 10, 120, 10] := by
  obtain ⟨-, -, -, -, hcount, hanswers, hreturns⟩ := run_dialogue [] [49, 10, 120, 10]
  have hlines : splitLines [49, 10, 120, 10] = ["1\n", "x\n"].map encode := by decide
  have hnumber : encode "1\n" ∈ splitLines [49, 10, 120, 10] := by decide
  have hletter : encode "x\n" ∈ splitLines [49, 10, 120, 10] := by decide
  have hone : (parse (mode []) (expression "1\n")).value.bind Tree.evaluate = .ok (1 : Float) := by
    rw [value_parse]
    decide +kernel
  have hx : ((parse (mode []) (expression "x\n")).value.bind Tree.evaluate : Except Error Float) =
      .error (.notANumber "x") := by
    rw [value_parse]
    decide +kernel
  have hadded : Returned [49, 10, 120, 10] [49, 13, 13, 10, 120, 13, 10] :=
    .keep 49 (.add 2 (.keep 120 (.add 1 .nil)))
  obtain ⟨⟨reply, hreply, -, hvalue, -⟩, -⟩ := hanswers _ hnumber
  obtain ⟨⟨reply', hreply', -, -, herror⟩, -⟩ := hanswers _ hletter
  rw [hvalue _ hone] at hreply
  rw [herror _ hx] at hreply'
  exact ⟨⟨hlines, hcount _ hlines⟩, ⟨hnumber, hone, hreply⟩, ⟨hletter, hx, hreply'⟩, hadded,
    hreturns _ hadded⟩

end Repl

end InfixArith
