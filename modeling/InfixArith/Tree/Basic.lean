import InfixArith.Symbol
/-!
# Expression trees

A tree is empty or has a symbol at its root and two trees below it. Nothing is said about where
numbers and operators stand: an operator may lack an operand, and a number may have trees below it.
The right spine of a tree is what is met on the way that always goes right, and cutting it at the
first symbol with a property leaves the layers above the cut, which put back together what was cut.
-/

namespace InfixArith

inductive Tree (α : Type) where
  | empty
  | node (left : Tree α) (symbol : Symbol α) (right : Tree α)
deriving DecidableEq, Repr, Inhabited

namespace Tree

variable {α : Type}

def leaf (symbol : Symbol α) : Tree α := node empty symbol empty

def isEmpty : Tree α → Bool
  | empty => true
  | node .. => false

def isLeaf : Tree α → Bool
  | node empty _ empty => true
  | _ => false

def symbol? : Tree α → Option (Symbol α)
  | empty => none
  | node _ symbol _ => some symbol

def size : Tree α → Nat
  | empty => 0
  | node left _ right => left.size + 1 + right.size

protected def beq [BEq α] : Tree α → Tree α → Bool
  | empty, empty => true
  | node left symbol right, node left' symbol' right' =>
      symbol == symbol' && left.beq left' && right.beq right'
  | _, _ => false

instance [BEq α] : BEq (Tree α) := ⟨Tree.beq⟩

theorem isEmpty_eq_false {t : Tree α} (h : t ≠ empty) : t.isEmpty = false := by
  cases t with
  | empty => exact absurd rfl h
  | node left symbol right => rfl

/-- The part of a spine's node that a cut below it leaves in place: its left tree and its symbol. -/
structure Layer (α : Type) where
  left : Tree α
  symbol : Symbol α
deriving DecidableEq, Repr

/-- Goes down the right spine past the symbols with a property. Gives the layers passed, the lowest
first and onto those given, and the tree below them. -/
def cutSpine (passes : Symbol α → Bool) : Tree α → List (Layer α) → List (Layer α) × Tree α
  | empty, above => (above, empty)
  | node left symbol right, above =>
      if passes symbol then right.cutSpine passes (⟨left, symbol⟩ :: above)
      else (above, node left symbol right)

/-- Hangs a tree below layers, the lowest first. -/
def joinSpine (above : List (Layer α)) (below : Tree α) : Tree α :=
  above.foldl (fun right layer => node layer.left layer.symbol right) below

theorem joinSpine_cutSpine (passes : Symbol α → Bool) (t : Tree α) (above : List (Layer α)) :
    joinSpine (t.cutSpine passes above).1 (t.cutSpine passes above).2 = joinSpine above t := by
  induction t generalizing above with
  | empty => rfl
  | node left symbol right _ ih =>
    rw [cutSpine]
    split
    · rw [ih]
      rfl
    · rfl

theorem joinSpine_append (lower upper : List (Layer α)) (t : Tree α) :
    joinSpine (lower ++ upper) t = joinSpine upper (joinSpine lower t) := by
  simp only [joinSpine, List.foldl_append]

/-- The layers given are only carried along. -/
theorem cutSpine_eq_append (passes : Symbol α → Bool) (t : Tree α) (above : List (Layer α)) :
    t.cutSpine passes above = ((t.cutSpine passes []).1 ++ above, (t.cutSpine passes []).2) := by
  induction t generalizing above with
  | empty => rfl
  | node left symbol right _ ih =>
    rw [cutSpine, cutSpine]
    split
    · rw [ih (⟨left, symbol⟩ :: above), ih [⟨left, symbol⟩]]
      simp only [List.append_assoc, List.cons_append, List.nil_append]
    · rfl

end Tree

end InfixArith
