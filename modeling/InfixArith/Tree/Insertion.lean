import InfixArith.Record
import InfixArith.Tree.Basic
/-!
# Building a tree symbol by symbol

A new symbol goes onto the right spine and takes what is below its place as its left tree. A number
goes below everything. An operator goes below the operators that it binds tighter than, and not past
a number, so what is already grouped by operators that bind at least as tightly becomes its left
operand. Its right operand is what comes next.
-/

namespace InfixArith

variable {α : Type}

/-- The symbols on a right spine that a new symbol goes below. -/
def Symbol.goesBelow : Symbol α → Symbol α → Bool
  | number _ => fun _ => true
  | operator op => isLooserThan op

@[simp] theorem Symbol.goesBelow_number (value : α) (own : Symbol α) :
    (Symbol.number value).goesBelow own = true := rfl

namespace Tree

def insert (t : Tree α) (symbol : Symbol α) : Tree α :=
  let (above, below) := t.cutSpine symbol.goesBelow []
  joinSpine above (node below symbol empty)

@[simp] theorem insert_empty (symbol : Symbol α) : empty.insert symbol = leaf symbol := rfl

/-- An insertion passes a node or takes it over as a whole. -/
theorem insert_node (left : Tree α) (own : Symbol α) (right : Tree α) (symbol : Symbol α) :
    (node left own right).insert symbol =
      if symbol.goesBelow own then node left own (right.insert symbol)
      else node (node left own right) symbol empty := by
  change joinSpine (cutSpine symbol.goesBelow (node left own right) []).1
    (node (cutSpine symbol.goesBelow (node left own right) []).2 symbol empty) = _
  rw [cutSpine]
  split
  · rw [cutSpine_eq_append, joinSpine_append]
    rfl
  · rfl

def insertRecords (t : Tree α) (symbol : Symbol α) : List (Record α) :=
  .inserting symbol :: match symbol, t with
    | .number _, _ => []
    | .operator _, empty => []
    | .operator op, node .. =>
        match (t.cutSpine symbol.goesBelow []).1.length with
        | 0 => [.becameRoot op]
        | depth + 1 => [.spliced op (depth + 1)]

/-- Inserts symbols one after another. The records given, the latest first, come before the new
ones. -/
def insertAll (t : Tree α) (latest : List (Record α)) : List (Symbol α) → Logged α (Tree α)
  | [] => ⟨t, latest.reverse⟩
  | symbol :: symbols =>
      (t.insert symbol).insertAll ((t.insertRecords symbol).reverseAux latest) symbols

def ofSymbols (symbols : List (Symbol α)) : Tree α := symbols.foldl insert empty

theorem value_insertAll (t : Tree α) (latest : List (Record α)) (symbols : List (Symbol α)) :
    (t.insertAll latest symbols).value = symbols.foldl insert t := by
  induction symbols generalizing t latest with
  | nil => rfl
  | cons symbol symbols ih => exact ih _ _

end Tree

end InfixArith
