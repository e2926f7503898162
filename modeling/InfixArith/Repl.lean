import InfixArith.Expression
import InfixArith.Number.Ieee
import InfixArith.Tree.Listing
/-!
# The dialogue

The program shows an example, then prompts for a line, answers it in one line of its own, and
prompts again, until the input ends after a prompt. A line reaches up to its newline and is read
without the line ends behind it. Bytes that are not UTF-8 end the dialogue after the prompt for
their line, with an exit code of failure. No answer depends on an earlier line.
-/

namespace InfixArith.Repl

structure Transcript where
  output : String
  exitCode : Nat
deriving DecidableEq, Repr

def prompt : String := ": "

def answerLine : Except Error Float → String
  | .ok value => "=> " ++ Number.write value ++ "\n"
  | .error error => "Error: " ++ error.message ++ "\n"

/-- The sum of one and of two with the product of three and four. -/
def exampleTree : Tree Float :=
  .node (.leaf (.number 1)) (.operator .add)
    (.node (.leaf (.number 2)) (.operator .add)
      (.node (.leaf (.number 3)) (.operator .multiply) (.leaf (.number 4))))

def banner : String :=
  "Example: \n" ++ prompt ++ " ".intercalate (exampleTree.listing.map Symbol.write) ++ "\n" ++
    answerLine exampleTree.evaluate

def mode (arguments : List String) : Mode :=
  if arguments.contains "--lenient" then .lenient else .strict

def newline : UInt8 := 10

/-- The lines of the input, each with its newline; only the last one may lack it. -/
def splitLines (input : List UInt8) : List (List UInt8) :=
  input.foldr (fun byte lines =>
    if byte == newline then [byte] :: lines
    else match lines with
      | [] => [[byte]]
      | line :: lines => (byte :: line) :: lines) []

/-- The expression in a line: what is there before the carriage returns and newlines at its end. -/
def expression (line : String) : String :=
  String.ofList (Text.dropTrailing (fun c => c == '\n' || c == '\r') line.toList)

def answer (mode : Mode) (line : String) : Logged Float String :=
  let evaluated := evaluateIn mode (expression line)
  ⟨answerLine evaluated.value, evaluated.records⟩

/-- The text of a line, if its bytes are UTF-8. -/
def decodeLine? (line : List UInt8) : Option String := String.fromUTF8? ⟨line.toArray⟩

/-- What follows a prompt. -/
inductive Reply where
  | answered (answer : Logged Float String)
  | closed (exitCode : Nat)

/-- Answers the next line of the input. Where there is none, or it is no text, the dialogue ends. -/
def reply (mode : Mode) : Option (List UInt8) → Reply
  | none => .closed 0
  | some line =>
      match decodeLine? line with
      | some text => .answered (answer mode text)
      | none => .closed 1

/-- Goes on with the lines that are left after what is already put out. -/
def converse (mode : Mode) (output : String) (lines : List (List UInt8)) : Transcript :=
  match _hreply : reply mode lines.head? with
  | .answered answer => converse mode (output ++ prompt ++ answer.value) lines.tail
  | .closed exitCode => ⟨output ++ prompt, exitCode⟩
termination_by lines.length
decreasing_by
  cases lines with
  | nil => cases _hreply
  | cons line lines => exact Nat.lt_succ_self lines.length

theorem converse_of_answered {mode : Mode} {lines : List (List UInt8)}
    {answer : Logged Float String}
    (h : reply mode lines.head? = .answered answer) (output : String) :
    converse mode output lines = converse mode (output ++ prompt ++ answer.value) lines.tail := by
  rw [converse]
  split
  next _ hanswered =>
    cases h.symm.trans hanswered
    rfl
  next _ hclosed => cases h.symm.trans hclosed

theorem converse_of_closed {mode : Mode} {lines : List (List UInt8)} {exitCode : Nat}
    (h : reply mode lines.head? = .closed exitCode) (output : String) :
    converse mode output lines = ⟨output ++ prompt, exitCode⟩ := by
  rw [converse]
  split
  next _ hanswered => cases h.symm.trans hanswered
  next _ hclosed =>
    cases h.symm.trans hclosed
    rfl

def run (arguments : List String) (input : List UInt8) : Transcript :=
  converse (mode arguments) banner (splitLines input)

end InfixArith.Repl
