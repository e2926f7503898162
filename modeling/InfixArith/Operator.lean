/-!
# The five operators

An operator is written as one character and has one of three precedences. Operators of equal
precedence do not bind tighter than each other, and that alone makes every one of them, the power
included, group from the left. The order of the constructors is a second order, finer than
precedence, and used for comparison only.
-/

namespace InfixArith

inductive Operator where
  | add
  | subtract
  | multiply
  | divide
  | power
deriving DecidableEq, Repr, Inhabited

namespace Operator

def all : List Operator := [add, subtract, multiply, divide, power]

def glyph : Operator → Char
  | add => '+'
  | subtract => '-'
  | multiply => '*'
  | divide => '/'
  | power => '^'

def ofGlyph? : Char → Option Operator
  | '+' => some add
  | '-' => some subtract
  | '*' => some multiply
  | '/' => some divide
  | '^' => some power
  | _ => none

/-- How tightly an operator binds; the higher binds tighter. -/
def precedence : Operator → Nat
  | add | subtract => 0
  | multiply | divide => 1
  | power => 2

theorem precedence_le_two (op : Operator) : op.precedence ≤ 2 := by cases op <;> decide

def bindsTighterThan (op other : Operator) : Bool := other.precedence < op.precedence

def rank : Operator → Nat
  | add => 0
  | subtract => 1
  | multiply => 2
  | divide => 3
  | power => 4

instance : Ord Operator := ⟨fun left right => compare left.rank right.rank⟩

def write (op : Operator) : String := op.glyph.toString

@[simp] theorem toList_write (op : Operator) : op.write.toList = [op.glyph] :=
  String.toList_singleton op.glyph

theorem ofGlyph?_glyph (op : Operator) : ofGlyph? op.glyph = some op := by cases op <;> rfl

theorem glyph_of_ofGlyph? {c : Char} {op : Operator} (h : ofGlyph? c = some op) : op.glyph = c := by
  unfold ofGlyph? at h
  split at h <;> cases h <;> rfl

theorem mem_all (op : Operator) : op ∈ all := by cases op <;> decide

theorem all_rank (op : Operator) : all[op.rank]? = some op := by cases op <;> rfl

theorem bindsTighterThan_iff {op other : Operator} :
    op.bindsTighterThan other = true ↔ other.precedence < op.precedence := by
  simp [bindsTighterThan]

end Operator

end InfixArith
