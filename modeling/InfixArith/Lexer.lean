import InfixArith.Record
import InfixArith.Text.Cursor
/-!
# From a text to symbols

The words of a text are read alternately as numbers and operators, beginning with a number. Reading
ends without an error where a word is missing, and before a word of several characters in an
operator's place. A word of one character in an operator's place has to be an operator. What a bad
word in a number's place does is the mode's decision: it fails, or it ends the expression before it.

The lexer is a state and a step. Each step that goes on has read two words, so the text that is left
grows shorter, and that is why it stops.
-/

namespace InfixArith

open Text (Cursor)

/-- What a word that should be a number and is none does to the whole. -/
inductive Mode where
  | strict
  | lenient
deriving DecidableEq, Repr, Inhabited

variable (α : Type) [Number α]

namespace Text.Cursor

/-- The next word read as a number, and the cursor behind it. -/
def number? (cursor : Cursor) : Except Error (Option (α × Cursor)) :=
  match cursor.word? with
  | none => .ok none
  | some (word, stop) =>
      match Number.read? (String.ofList word) with
      | some value => .ok (some (value, stop))
      | none => .error (.notANumber (String.ofList word))

/-- The next word read as an operator, and the cursor behind it. A word of several characters counts
as the end. -/
def operator? (cursor : Cursor) : Except Error (Option (Operator × Cursor)) :=
  match cursor.word? with
  | some ([glyph], stop) =>
      match Operator.ofGlyph? glyph with
      | some op => .ok (some (op, stop))
      | none => .error (.unknownOperator glyph)
  | _ => .ok none

variable {α} in
theorem length_rest_lt_of_number? {cursor stop : Cursor} {value : α}
    (h : cursor.number? α = .ok (some (value, stop))) : stop.rest.length < cursor.rest.length := by
  unfold number? at h
  split at h
  · cases h
  next hword =>
    split at h <;> cases h
    exact length_rest_lt_of_word? hword

theorem length_rest_lt_of_operator? {cursor stop : Cursor} {op : Operator}
    (h : cursor.operator? = .ok (some (op, stop))) : stop.rest.length < cursor.rest.length := by
  unfold operator? at h
  split at h
  next hword =>
    split at h <;> cases h
    exact length_rest_lt_of_word? hword
  · cases h

end Text.Cursor

/-- The next word at or after a byte offset read as a number, and the offset behind it. -/
def nextNumber? (text : String) (offset : Nat) : Except Error (Option (α × Nat)) :=
  match Cursor.at? text.toList offset with
  | none => .ok none
  | some cursor => (·.map fun (value, stop) => (value, stop.offset)) <$> cursor.number? α

/-- The next word at or after a byte offset read as an operator, and the offset behind it. -/
def nextOperator? (text : String) (offset : Nat) : Except Error (Option (Operator × Nat)) :=
  match Cursor.at? text.toList offset with
  | none => .ok none
  | some cursor => (·.map fun (op, stop) => (op, stop.offset)) <$> cursor.operator?

variable {α}

/-- A place in the text where a number is due, and the symbols read up to there, the latest first.
-/
structure Lexer (α : Type) where
  cursor : Cursor
  latest : List (Symbol α)

namespace Lexer

inductive Outcome (α : Type) where
  | more (next : Lexer α)
  /-- The end of the expression, with what there is to say about it. -/
  | done (latest : List (Symbol α)) (notice : Option (Record α))
  | failed (error : Error)

def start (text : String) : Lexer α := ⟨.start text.toList, []⟩

def step (mode : Mode) (text : String) (lexer : Lexer α) : Outcome α :=
  match lexer.cursor.number? α with
  | .ok none =>
      .done lexer.latest (if lexer.latest.isEmpty then none else some (.numberExpected text))
  | .error error =>
      match mode with
      | .strict => .failed error
      | .lenient => .done lexer.latest (some (.discarded error (String.ofList lexer.cursor.rest)))
  | .ok (some (value, numberEnd)) =>
      let latest := .number value :: lexer.latest
      match numberEnd.advance.operator? with
      | .ok (some (op, operatorEnd)) => .more ⟨operatorEnd.advance, .operator op :: latest⟩
      | .ok none => .done latest none
      | .error error => .failed error

theorem length_rest_lt_of_step {mode : Mode} {text : String} {lexer next : Lexer α}
    (h : lexer.step mode text = .more next) :
    next.cursor.rest.length < lexer.cursor.rest.length := by
  unfold step at h
  split at h
  · cases h
  · split at h <;> cases h
  next hnumber =>
    dsimp only at h
    split at h
    next numberEnd _ _ operatorEnd hoperator =>
      cases h
      exact Nat.lt_of_le_of_lt (Cursor.length_rest_advance_le operatorEnd)
        (Nat.lt_trans (Nat.lt_of_lt_of_le (Cursor.length_rest_lt_of_operator? hoperator)
          (Cursor.length_rest_advance_le numberEnd)) (Cursor.length_rest_lt_of_number? hnumber))
    · cases h
    · cases h

/-- Steps until the end. Records are kept only of an end without error. -/
def run (mode : Mode) (text : String) (lexer : Lexer α) :
    Logged α (Except Error (List (Symbol α))) :=
  match h : lexer.step mode text with
  | .more next => next.run mode text
  | .done latest notice => ⟨.ok latest.reverse, notice.toList ++ [.lexed latest.length text]⟩
  | .failed error => ⟨.error error, []⟩
termination_by lexer.cursor.rest.length
decreasing_by exact length_rest_lt_of_step h

end Lexer

def lex (mode : Mode) (text : String) : Logged α (Except Error (List (Symbol α))) :=
  (Lexer.start text).run mode text

end InfixArith
