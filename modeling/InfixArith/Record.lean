import InfixArith.Error
import InfixArith.Text.Blank
/-!
# Records

What happens while a text is read and a tree is built is kept as data, beside the result and in
order. A record knows its level, which part of the library it speaks of, and its message; the texts
in it are kept whole, and the white space at their ends is removed only in the message.
-/

namespace InfixArith

inductive Level where
  | warn
  | debug
  | trace
deriving DecidableEq, Repr

/-- The part of the library that a record speaks of. -/
inductive Origin where
  | lexer
  | tree
deriving DecidableEq, Repr

inductive Record (α : Type) where
  /-- Lexing stopped before a word that is no number. -/
  | discarded (error : Error) (rest : String)
  /-- The text ended behind an operator. -/
  | numberExpected (text : String)
  | lexed (count : Nat) (text : String)
  | inserting (symbol : Symbol α)
  /-- An operator took over the whole tree. -/
  | becameRoot (op : Operator)
  /-- An operator took over what was below the first `depth` nodes of the right spine. -/
  | spliced (op : Operator) (depth : Nat)
deriving DecidableEq, Repr

namespace Record

variable {α : Type}

def level : Record α → Level
  | discarded .. => .warn
  | numberExpected .. | lexed .. => .debug
  | inserting .. | becameRoot .. | spliced .. => .trace

def origin : Record α → Origin
  | discarded .. | numberExpected .. | lexed .. => .lexer
  | inserting .. | becameRoot .. | spliced .. => .tree

def quoted (chars : List Char) : String := "\"" ++ String.ofList chars ++ "\""

def message [Number α] : Record α → String
  | discarded error rest => error.message ++ ", discarding " ++ quoted (Text.trim rest.toList)
  | numberExpected text => "expected number after " ++ quoted (Text.trimEnd text.toList)
  | lexed count text => "lexed " ++ toString count ++ " symbols from " ++ quoted text.toList
  | inserting symbol => "inserting " ++ symbol.write
  | becameRoot op => op.write ++ " becomes root"
  | spliced op depth => op.write ++ " spliced into right spine at depth " ++ toString depth

end Record

/-- A result and the records of how it came about. -/
structure Logged (α β : Type) where
  value : β
  records : List (Record α)

end InfixArith
