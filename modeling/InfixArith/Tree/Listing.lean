import InfixArith.Tree.Basic
/-!
# The symbols of a tree in order

A listing names the left tree, then the symbol at the root, then the right tree. It is produced from
a position in the tree and the nodes that wait for their left trees to be done, each with its right
tree, so a tree of any depth is listed in constant stack space. What is still to come from such a
state is the listing of the position, then from the top each waiting symbol and the listing of its
right tree.
-/

namespace InfixArith.Tree

variable {α : Type}

def symbols : Tree α → List (Symbol α)
  | empty => []
  | node left symbol right => left.symbols ++ symbol :: right.symbols

/-- Lists a position and the waiting nodes after what is already listed, the latest first. -/
def listFrom : Tree α → List (Symbol α × Tree α) → List (Symbol α) → List (Symbol α)
  | node left symbol right, waiting, latest => left.listFrom ((symbol, right) :: waiting) latest
  | empty, (symbol, right) :: waiting, latest => right.listFrom waiting (symbol :: latest)
  | empty, [], latest => latest.reverse
termination_by position waiting =>
  2 * position.size + waiting.foldr (fun entry later => 2 * entry.2.size + 1 + later) 0
decreasing_by all_goals simp [size] <;> omega

def listing (t : Tree α) : List (Symbol α) := t.listFrom [] []

theorem listFrom_eq (position : Tree α) (waiting : List (Symbol α × Tree α))
    (latest : List (Symbol α)) :
    listFrom position waiting latest = latest.reverse ++
      (position.symbols ++ waiting.flatMap fun entry => entry.1 :: entry.2.symbols) := by
  fun_induction listFrom position waiting latest with
  | case1 left symbol right waiting latest ih =>
    rw [ih, symbols, List.flatMap_cons]
    simp only [List.append_assoc, List.cons_append]
  | case2 symbol right waiting latest ih =>
    rw [ih, symbols, List.flatMap_cons, List.reverse_cons]
    simp only [List.append_assoc, List.cons_append, List.nil_append]
  | case3 latest => exact (List.append_nil _).symm

theorem listing_eq_symbols (t : Tree α) : t.listing = t.symbols := by
  simp [listing, listFrom_eq]

/-- The words of the symbols, one behind the other without spaces. -/
def write [Number α] (t : Tree α) : String := String.join (t.listing.map Symbol.write)

end InfixArith.Tree
