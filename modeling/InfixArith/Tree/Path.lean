import InfixArith.Tree.Basic
/-!
# Places in a tree

A path leads from the root down by left and right steps. At the end of a path there is a node or
there is none, and the child on one side of a node can be replaced, which touches nothing else.
-/

namespace InfixArith

inductive Side where
  | left
  | right
deriving DecidableEq, Repr

namespace Tree

variable {α : Type}

def child : Tree α → Side → Tree α
  | empty, _ => empty
  | node left _ _, .left => left
  | node _ _ right, .right => right

/-- The tree at the end of a path, empty if the path leads to no node. -/
def subtree (t : Tree α) : List Side → Tree α
  | [] => t
  | side :: path => (t.child side).subtree path

/-- A node with its child on one side replaced. The empty tree has no sides. -/
def withChild : Tree α → Side → Tree α → Tree α
  | empty, _, _ => empty
  | node _ symbol right, .left, new => node new symbol right
  | node left symbol _, .right, new => node left symbol new

/-- The tree with the child replaced on one side of the node at the end of a path. -/
def setChild (t : Tree α) (path : List Side) (side : Side) (new : Tree α) : Tree α :=
  match path with
  | [] => t.withChild side new
  | step :: path => t.withChild step ((t.child step).setChild path side new)

/-- Replaces the child on one side of the node at the end of a path. Gives the child that was there
and the new tree, or nothing if the path leads to no node. -/
def replaceChild? (t : Tree α) (path : List Side) (side : Side) (new : Tree α) :
    Option (Tree α × Tree α) :=
  match t.subtree path with
  | empty => none
  | found => some (found.child side, t.setChild path side new)

@[simp] theorem subtree_nil (t : Tree α) : t.subtree [] = t := rfl

@[simp] theorem subtree_cons (t : Tree α) (side : Side) (path : List Side) :
    t.subtree (side :: path) = (t.child side).subtree path := rfl

@[simp] theorem subtree_empty (path : List Side) : (empty : Tree α).subtree path = empty := by
  induction path with
  | nil => rfl
  | cons side path ih => exact ih

theorem subtree_append (t : Tree α) (path path' : List Side) :
    t.subtree (path ++ path') = (t.subtree path).subtree path' := by
  induction path generalizing t with
  | nil => rfl
  | cons side path ih => exact ih _

end Tree

end InfixArith
