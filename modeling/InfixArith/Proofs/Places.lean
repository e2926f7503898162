import InfixArith.Tree.Path
import Mathlib.Data.List.Infix
/-!
# Replacing the tree at a place

A place is a path from the root at whose end there may be a tree or none, as long as every node on
the way is there. What is replaced is read at the place and behind it. Everything else stays: a node
before the place keeps its symbol, and a tree that the path to the place does not touch is the same
as before.
-/

namespace InfixArith.Tree

variable {α : Type}

@[simp] theorem symbol?_withChild (t : Tree α) (side : Side) (new : Tree α) :
    (t.withChild side new).symbol? = t.symbol? := by
  cases t <;> cases side <;> rfl

@[simp] theorem withChild_empty (side : Side) (new : Tree α) :
    empty.withChild side new = empty := by
  cases side <;> rfl

theorem child_withChild {t : Tree α} (h : t ≠ empty) (side : Side) (new : Tree α) :
    (t.withChild side new).child side = new := by
  cases t with
  | empty => exact absurd rfl h
  | node left symbol right => cases side <;> rfl

theorem child_withChild_of_ne (t : Tree α) {side other : Side} (h : side ≠ other) (new : Tree α) :
    (t.withChild side new).child other = t.child other := by
  cases t <;> cases side <;> cases other <;> first | rfl | exact absurd rfl h

/-- The tree with another one at the end of a path. -/
def replaceAt : Tree α → List Side → Tree α → Tree α
  | _, [], new => new
  | t, side :: path, new => t.withChild side ((t.child side).replaceAt path new)

/-- Every node before the end of the path is there. -/
def HasPlace : Tree α → List Side → Prop
  | _, [] => True
  | t, side :: path => t ≠ empty ∧ (t.child side).HasPlace path

theorem subtree_replaceAt {t : Tree α} {place : List Side} (h : t.HasPlace place) (new : Tree α)
    (path : List Side) :
    (t.replaceAt place new).subtree (place ++ path) = new.subtree path := by
  induction place generalizing t with
  | nil => rfl
  | cons side place ih =>
    obtain ⟨hroot, hplace⟩ := h
    rw [replaceAt, List.cons_append, subtree_cons, child_withChild hroot]
    exact ih hplace

theorem subtree_replaceAt_cons (t : Tree α) (side other : Side) (place path : List Side)
    (new : Tree α) :
    (t.replaceAt (side :: place) new).subtree (other :: path) = t.subtree (other :: path) ∨
      side = other ∧ (t.replaceAt (side :: place) new).subtree (other :: path) =
        ((t.child side).replaceAt place new).subtree path := by
  rw [replaceAt, subtree_cons, subtree_cons]
  by_cases hroot : t = empty
  · left
    rw [hroot, withChild_empty]
  · by_cases hside : side = other
    · right
      subst hside
      exact ⟨rfl, by rw [child_withChild hroot]⟩
    · left
      rw [child_withChild_of_ne t hside]

/-- What the path to the place does not touch is the same. -/
theorem subtree_replaceAt_of_apart (t : Tree α) {place path : List Side} (new : Tree α)
    (hbelow : ¬ place <+: path) (habove : ¬ path <+: place) :
    (t.replaceAt place new).subtree path = t.subtree path := by
  induction place generalizing t path with
  | nil => exact absurd List.nil_prefix hbelow
  | cons side place ih =>
    cases path with
    | nil => exact absurd List.nil_prefix habove
    | cons other path =>
      rw [List.cons_prefix_cons, not_and] at hbelow habove
      obtain hsame | ⟨rfl, hdeeper⟩ := subtree_replaceAt_cons t side other place path new
      · exact hsame
      · rw [hdeeper]
        exact ih _ (hbelow rfl) (habove rfl)

theorem symbol?_subtree_replaceAt (t : Tree α) {place path : List Side} (new : Tree α)
    (h : ¬ place <+: path) :
    ((t.replaceAt place new).subtree path).symbol? = (t.subtree path).symbol? := by
  induction place generalizing t path with
  | nil => exact absurd List.nil_prefix h
  | cons side place ih =>
    cases path with
    | nil => exact symbol?_withChild t side _
    | cons other path =>
      rw [List.cons_prefix_cons, not_and] at h
      obtain hsame | ⟨rfl, hdeeper⟩ := subtree_replaceAt_cons t side other place path new
      · rw [hsame]
      · rw [hdeeper]
        exact ih _ (h rfl)

end InfixArith.Tree
