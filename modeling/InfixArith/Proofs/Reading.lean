import InfixArith.Lexer
import InfixArith.Proofs.Sequence
import InfixArith.Proofs.Words
/-!
# Reading a list of words

What a text says depends on its words alone. They are read in turns, as a number and as an operator,
and what ends the reading or makes it fail is a matter of one word and whose turn it is. The lexer
does the same with a cursor: each of its steps leaves the same reading for the words behind the
cursor, put after what was read before.
-/

namespace InfixArith

open Sequence (Alternating EndsWithNumber)
open Text (Cursor words)

/-- What the next word is read as. -/
inductive Turn where
  | number
  | operator
deriving DecidableEq, Repr

variable {α : Type} [Number α]

/-- What comes of an error in a number's place. -/
def Mode.refuse (mode : Mode) (error : Error) : Except Error (List (Symbol α)) :=
  match mode with
  | .strict => .error error
  | .lenient => .ok []

/-- The symbols that words are read as, up to where reading ends. -/
def readWords (mode : Mode) : Turn → List (List Char) → Except Error (List (Symbol α))
  | _, [] => .ok []
  | .number, word :: words =>
      match Number.read? (String.ofList word) with
      | some value => (readWords mode .operator words).map (.number value :: ·)
      | none => mode.refuse (.notANumber (String.ofList word))
  | .operator, [glyph] :: words =>
      match Operator.ofGlyph? glyph with
      | some op => (readWords mode .number words).map (.operator op :: ·)
      | none => .error (.unknownOperator glyph)
  | .operator, _ :: _ => .ok []

/-! ### What is read -/

def Turn.isOperator : Turn → Bool
  | number => false
  | operator => true

def Turn.other : Turn → Turn
  | number => operator
  | operator => number

/-- The kinds take turns, beginning with the one whose turn it is. -/
def Turn.Rules (turn : Turn) (symbols : List (Symbol α)) : Prop :=
  (∀ symbol ∈ symbols.head?, symbol.isOperator = turn.isOperator) ∧
    symbols.IsChain fun left right => left.isOperator ≠ right.isOperator

omit [Number α] in
theorem Turn.rules_cons_iff {turn : Turn} {symbol : Symbol α} {symbols : List (Symbol α)} :
    turn.Rules (symbol :: symbols) ↔ symbol.isOperator = turn.isOperator ∧
    turn.other.Rules symbols := by
  have hother : turn.other.isOperator = !turn.isOperator := by cases turn <;> rfl
  simp only [Rules, List.isChain_cons, List.head?_cons, Option.mem_some_iff, forall_eq', hother,
    Bool.eq_not]
  constructor
  · intro h
    obtain ⟨hsymbol, hsecond, hturns⟩ := h
    rw [hsymbol] at hsecond
    exact ⟨hsymbol, fun second hmem => (hsecond second hmem).symm, hturns⟩
  · intro h
    obtain ⟨hsymbol, hsecond, hturns⟩ := h
    rw [hsymbol]
    exact ⟨rfl, fun second hmem => (hsecond second hmem).symm, hturns⟩

/-- The symbol that the turn makes of a word. -/
def Turn.symbol? : Turn → List Char → Option (Symbol α)
  | number, word => (Number.read? (String.ofList word)).map .number
  | operator, [glyph] => (Operator.ofGlyph? glyph).map .operator
  | operator, _ => none

/-- What comes of a word that is no such symbol. -/
def Turn.ending (mode : Mode) : Turn → List Char → Except Error (List (Symbol α))
  | number, word => mode.refuse (.notANumber (String.ofList word))
  | operator, [glyph] => .error (.unknownOperator glyph)
  | operator, _ => .ok []

theorem Turn.isOperator_of_symbol? {turn : Turn} {word : List Char} {symbol : Symbol α}
    (h : turn.symbol? word = some symbol) : symbol.isOperator = turn.isOperator := by
  unfold symbol? at h
  split at h
  · obtain ⟨value, -, rfl⟩ := Option.map_eq_some_iff.mp h
    rfl
  · obtain ⟨op, -, rfl⟩ := Option.map_eq_some_iff.mp h
    rfl
  · cases h

theorem readWords_cons (mode : Mode) (turn : Turn) (word : List Char) (ws : List (List Char)) :
    (readWords mode turn (word :: ws) : Except Error (List (Symbol α))) =
      match turn.symbol? word with
      | some symbol => (readWords mode turn.other ws).map (symbol :: ·)
      | none => turn.ending mode word := by
  match turn, word with
  | .number, word =>
    rw [readWords, Turn.symbol?]
    cases (Number.read? (String.ofList word) : Option α) <;> rfl
  | .operator, [glyph] =>
    rw [readWords, Turn.symbol?]
    cases Operator.ofGlyph? glyph <;> rfl
  | .operator, [] => rfl
  | .operator, _ :: _ :: _ => rfl

omit [Number α] in
theorem Turn.eq_nil_of_ending {mode : Mode} {turn : Turn} {word : List Char}
    {symbols : List (Symbol α)}
    (h : turn.ending mode word = .ok symbols) : symbols = [] := by
  unfold ending at h
  split at h
  · cases mode with
    | strict => cases h
    | lenient => exact (Except.ok.inj h).symm
  · cases h
  · exact (Except.ok.inj h).symm

theorem readWords_cons_cases {mode : Mode} {turn : Turn} {word : List Char} {ws : List (List Char)}
    {symbols : List (Symbol α)} (h : readWords mode turn (word :: ws) = .ok symbols) :
    symbols = [] ∨ ∃ symbol rest, symbols = symbol :: rest ∧ turn.symbol? word = some symbol ∧
      readWords mode turn.other ws = .ok rest := by
  rw [readWords_cons] at h
  split at h
  next symbol hsymbol =>
    obtain ⟨rest, hrest, rfl⟩ := map_eq_ok_iff.mp h
    exact .inr ⟨symbol, rest, rfl, hsymbol, hrest⟩
  · exact .inl (Turn.eq_nil_of_ending h)

theorem rules_readWords {mode : Mode} {turn : Turn} {ws : List (List Char)}
    {symbols : List (Symbol α)}
    (h : readWords mode turn ws = .ok symbols) : turn.Rules symbols := by
  induction ws generalizing turn symbols with
  | nil =>
    cases h
    exact ⟨nofun, .nil⟩
  | cons word ws ih =>
    obtain rfl | ⟨symbol, rest, rfl, hsymbol, hrest⟩ := readWords_cons_cases h
    · exact ⟨nofun, .nil⟩
    · exact Turn.rules_cons_iff.mpr ⟨Turn.isOperator_of_symbol? hsymbol, ih hrest⟩

theorem alternating_of_readWords {mode : Mode} {ws : List (List Char)} {symbols : List (Symbol α)}
    (h : readWords mode .number ws = .ok symbols) : Alternating symbols :=
  ⟨(rules_readWords h).1, (rules_readWords h).2⟩

/-! ### Reading behind what is read to its end -/

/-- Whose turn it is behind symbols. -/
def Turn.behind (turn : Turn) (symbols : List (Symbol α)) : Turn :=
  symbols.foldl (fun _ symbol => if symbol.isOperator then .number else .operator) turn

omit [Number α] in
theorem Turn.behind_cons {turn : Turn} {symbol : Symbol α} (h : symbol.isOperator = turn.isOperator)
    (symbols : List (Symbol α)) : turn.behind (symbol :: symbols) = turn.other.behind symbols := by
  have hother : (if symbol.isOperator then .number else .operator) = turn.other := by
    rw [h]
    cases turn <;> rfl
  rw [behind, List.foldl_cons, hother]
  rfl

omit [Number α] in
theorem Turn.behind_eq_operator_iff {symbols : List (Symbol α)} :
    Turn.number.behind symbols = .operator ↔ EndsWithNumber symbols := by
  obtain rfl | ⟨before, symbol, rfl⟩ := List.eq_nil_or_concat' symbols
  · simp [behind, EndsWithNumber]
  · rw [behind, List.foldl_append]
    cases symbol <;> simp [Symbol.isOperator, EndsWithNumber]

omit [Number α] in
theorem Turn.behind_eq_number_iff {symbols : List (Symbol α)} :
    Turn.number.behind symbols = .number ↔ ¬ EndsWithNumber symbols := by
  rw [← Turn.behind_eq_operator_iff]
  cases Turn.number.behind symbols <;> simp

omit [Number α] in
theorem map_map_cons (result : Except Error (List (Symbol α))) (symbol : Symbol α)
    (symbols : List (Symbol α)) :
    (result.map (symbols ++ ·)).map (symbol :: ·) = result.map ((symbol :: symbols) ++ ·) := by
  cases result <;> rfl

theorem readWords_append {mode : Mode} {turn : Turn} {used : List (List Char)}
    {symbols : List (Symbol α)}
    (h : readWords mode turn used = .ok symbols) (hall : symbols.length = used.length)
    (rest : List (List Char)) :
    (readWords mode turn (used ++ rest) : Except Error (List (Symbol α))) =
      (readWords mode (turn.behind symbols) rest).map (symbols ++ ·) := by
  induction used generalizing turn symbols with
  | nil =>
    cases h
    exact (congrFun Except.map_id _).symm
  | cons word used ih =>
    obtain rfl | ⟨symbol, read, rfl, hsymbol, hread⟩ := readWords_cons_cases h
    · cases hall
    · rw [List.cons_append, readWords_cons, hsymbol]
      dsimp only
      rw [ih hread (Nat.succ.inj hall), map_map_cons,
        Turn.behind_cons (Turn.isOperator_of_symbol? hsymbol)]

/-- Words are symbols in turns up to a cut that does not depend on the mode. -/
theorem exists_readWords_append (turn : Turn) (ws : List (List Char)) :
    ∃ (used rest : List (List Char)) (symbols : List (Symbol α)), ws = used ++ rest ∧
      symbols.length = used.length ∧ (∀ mode, readWords mode turn used = .ok symbols) ∧
      ∀ word ∈ rest.head?, ((turn.behind symbols).symbol? word : Option (Symbol α)) = none := by
  induction ws generalizing turn with
  | nil => exact ⟨[], [], [], rfl, rfl, fun _ => rfl, nofun⟩
  | cons word ws ih =>
    cases hsymbol : (turn.symbol? word : Option (Symbol α)) with
    | none =>
      refine ⟨[], word :: ws, [], rfl, rfl, fun _ => rfl, fun first hfirst => ?_⟩
      cases hfirst
      exact hsymbol
    | some symbol =>
      obtain ⟨used, rest, symbols, rfl, hlength, hread, hstop⟩ := ih turn.other
      refine ⟨word :: used, rest, symbol :: symbols, rfl, congrArg (· + 1) hlength,
        fun mode => ?_, ?_⟩
      · rw [readWords_cons, hsymbol]
        dsimp only
        rw [hread]
        rfl
      · rwa [Turn.behind_cons (Turn.isOperator_of_symbol? hsymbol)]

/-! ### The words behind a cursor -/

theorem readWords_number_rest (mode : Mode) (cursor : Cursor) :
    (readWords mode .number (words cursor.rest) : Except Error (List (Symbol α))) =
      match cursor.number? α with
      | .ok none => .ok []
      | .error error => mode.refuse error
      | .ok (some (value, stop)) =>
          (readWords mode .operator (words stop.advance.rest)).map (.number value :: ·) := by
  rw [Cursor.number?]
  cases hword : cursor.word? with
  | none =>
    rw [Cursor.words_rest_of_word?_eq_none hword]
    rfl
  | some found =>
    obtain ⟨word, stop⟩ := found
    obtain ⟨spaces, hfinds⟩ := Cursor.exists_finds_of_word? hword
    rw [hfinds.words_rest, readWords]
    dsimp only
    cases (Number.read? (String.ofList word) : Option α) <;> rfl

theorem readWords_operator_rest (mode : Mode) (cursor : Cursor) :
    (readWords mode .operator (words cursor.rest) : Except Error (List (Symbol α))) =
      match cursor.operator? with
      | .ok none => .ok []
      | .error error => .error error
      | .ok (some (op, stop)) =>
          (readWords mode .number (words stop.advance.rest)).map (.operator op :: ·) := by
  rw [Cursor.operator?]
  cases hword : cursor.word? with
  | none =>
    rw [Cursor.words_rest_of_word?_eq_none hword]
    rfl
  | some found =>
    obtain ⟨word, stop⟩ := found
    obtain ⟨spaces, hfinds⟩ := Cursor.exists_finds_of_word? hword
    rw [hfinds.words_rest]
    match word with
    | [] => exact absurd rfl hfinds.word_ne_nil
    | first :: second :: word => rfl
    | [glyph] =>
      rw [readWords]
      dsimp only
      cases Operator.ofGlyph? glyph <;> rfl

/-! ### The lexer -/

namespace Lexer

theorem step_eq_more_iff {mode : Mode} {text : String} {lexer next : Lexer α} :
    lexer.step mode text = .more next ↔ ∃ value numberEnd op operatorEnd,
      lexer.cursor.number? α = .ok (some (value, numberEnd)) ∧
        numberEnd.advance.operator? = .ok (some (op, operatorEnd)) ∧
        next = ⟨operatorEnd.advance, .operator op :: .number value :: lexer.latest⟩ := by
  constructor
  · intro h
    unfold step at h
    split at h
    · cases h
    · split at h <;> cases h
    next value numberEnd hnumber =>
      dsimp only at h
      split at h
      next op operatorEnd hoperator =>
        cases h
        exact ⟨value, numberEnd, op, operatorEnd, hnumber, hoperator, rfl⟩
      · cases h
      · cases h
  · intro h
    obtain ⟨value, numberEnd, op, operatorEnd, hnumber, hoperator, rfl⟩ := h
    rw [step, hnumber]
    dsimp only
    rw [hoperator]

/-- What was read before, and then what the words at the cursor are read as. -/
def reading (mode : Mode) (lexer : Lexer α) : Except Error (List (Symbol α)) :=
  (readWords mode .number (words lexer.cursor.rest)).map (lexer.latest.reverse ++ ·)

def Outcome.reading (mode : Mode) : Outcome α → Except Error (List (Symbol α))
  | .more next => next.reading mode
  | .done latest _ => .ok latest.reverse
  | .failed error => .error error

theorem reading_step (mode : Mode) (text : String) (lexer : Lexer α) :
    (lexer.step mode text).reading mode = lexer.reading mode := by
  rw [step, reading, readWords_number_rest]
  cases lexer.cursor.number? α with
  | error error =>
    cases mode with
    | strict => rfl
    | lenient => exact congrArg Except.ok (List.append_nil _).symm
  | ok found =>
    cases found with
    | none => exact congrArg Except.ok (List.append_nil _).symm
    | some entry =>
      obtain ⟨value, numberEnd⟩ := entry
      dsimp only
      rw [readWords_operator_rest]
      cases numberEnd.advance.operator? with
      | error error => rfl
      | ok found =>
        cases found with
        | none => exact congrArg Except.ok List.reverse_cons
        | some entry =>
          obtain ⟨op, operatorEnd⟩ := entry
          change (readWords mode .number (words operatorEnd.advance.rest)).map
            ((.operator op :: .number value :: lexer.latest).reverse ++ ·) = _
          dsimp only
          cases (readWords mode .number (words operatorEnd.advance.rest) :
            Except Error (List (Symbol α))) with
          | error error => rfl
          | ok symbols =>
            refine congrArg Except.ok ?_
            simp only [List.reverse_cons, List.append_assoc, List.cons_append, List.nil_append]

theorem value_run (mode : Mode) (text : String) (lexer : Lexer α) :
    (lexer.run mode text).value = lexer.reading mode := by
  fun_induction run mode text lexer with
  | case1 lexer next hstep ih => rw [ih, ← reading_step mode text lexer, hstep, Outcome.reading]
  | case2 lexer latest notice hstep => rw [← reading_step mode text lexer, hstep, Outcome.reading]
  | case3 lexer error hstep => rw [← reading_step mode text lexer, hstep, Outcome.reading]

end Lexer

theorem value_lex (mode : Mode) (text : String) :
    (lex mode text).value =
      (readWords mode .number (words text.toList) : Except Error (List (Symbol α))) := by
  rw [lex, Lexer.value_run, Lexer.reading, Lexer.start]
  exact congrFun Except.map_id _

end InfixArith
