import InfixArith.Lexer
import InfixArith.Tree.Insertion
import InfixArith.Tree.Evaluation
/-!
# From a text to a value

A text is read into symbols, the symbols into a tree, and the tree is evaluated. The records of
reading come before those of building, and a text that is not read leaves none of either. The empty
text is the empty tree and nothing to speak of.
-/

namespace InfixArith

variable {α : Type} [Number α]

def parse (mode : Mode) (text : String) : Logged α (Except Error (Tree α)) :=
  if text.isEmpty then ⟨.ok .empty, []⟩
  else
    let lexed := lex mode text
    match lexed.value with
    | .error error => ⟨.error error, lexed.records⟩
    | .ok symbols =>
        let built := Tree.empty.insertAll lexed.records.reverse symbols
        ⟨.ok built.value, built.records⟩

/-- The value of a text, and the records of how it was read. -/
def evaluateIn (mode : Mode) (text : String) : Logged α (Except Error α) :=
  let parsed := parse mode text
  ⟨parsed.value.bind Tree.evaluate, parsed.records⟩

/-- The value of a text in which every number has to be one. -/
def evaluateText (text : String) : Except Error α := (evaluateIn .strict text).value

end InfixArith
