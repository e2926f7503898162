import InfixArith.Number.Ieee
import InfixArith.Proofs.Operands
import InfixArith.Tree.Path
import Mathlib.Logic.Relation
/-!
# What an evaluation comes to

An evaluation comes to the operator at the root and from each operator to its children, but never
below a number. It has a value if every operator it comes to has both children, and only then; that
value is the one which the operators give when each is applied to the values of its left and its
right child. On the way a combination always finds two numbers on top of the waiting operands, and
at the end a single one is left, because the pending visits call for exactly as many operands as
there are.
-/

namespace InfixArith

variable {α : Type}

namespace Tree

def IsOperation (t : Tree α) : Prop := ∃ left op right, t = node left (.operator op) right

/-- The operator at the root is reached, and every operator below one that is. -/
inductive Reached (root : Tree α) : Tree α → Prop
  | root (h : root.IsOperation) : Reached root root
  | child {t : Tree α} (side : Side) (ht : Reached root t) (h : (t.child side).IsOperation) :
      Reached root (t.child side)

/-- Cuts off what hangs below numbers. -/
def pruned : Tree α → Tree α
  | empty => empty
  | node _ (.number value) _ => leaf (.number value)
  | node left (.operator op) right => node left.pruned (.operator op) right.pruned

/-! ### The operators that are reached -/

theorem Reached.isOperation {root t : Tree α} (h : Reached root t) : root.IsOperation := by
  induction h with
  | root h => exact h
  | child side ht h ih => exact ih

theorem Reached.trans {root t s : Tree α} (ht : Reached root t) (hs : Reached t s) :
    Reached root s := by
  induction hs with
  | root h => exact ht
  | child side hs h ih => exact ih.child side h

theorem reached_operator_iff {left right s : Tree α} {op : Operator} :
    Reached (node left (.operator op) right) s ↔
      s = node left (.operator op) right ∨ Reached left s ∨ Reached right s := by
  constructor
  · intro h
    induction h with
    | root h => exact .inl rfl
    | child side ht h ih =>
      obtain rfl | hleft | hright := ih
      · cases side with
        | left => exact .inr (.inl (.root h))
        | right => exact .inr (.inr (.root h))
      · exact .inr (.inl (hleft.child side h))
      · exact .inr (.inr (hright.child side h))
  · have hroot : Reached (node left (.operator op) right) (node left (.operator op) right) :=
      .root ⟨left, op, right, rfl⟩
    rintro (rfl | hleft | hright)
    · exact hroot
    · exact (hroot.child .left hleft.isOperation).trans hleft
    · exact (hroot.child .right hright.isOperation).trans hright

theorem not_reached_number {left right s : Tree α} {value : α} :
    ¬ Reached (node left (.number value) right) s := by
  intro h
  obtain ⟨left', op, right', heq⟩ := h.isOperation
  cases heq

variable [Number α]

/-- The value of an operand, by its operators and the numbers next to them. -/
inductive HasValue : Tree α → α → Prop
  | number (left : Tree α) (value : α) (right : Tree α) :
      HasValue (node left (.number value) right) value
  | operator {left right : Tree α} {x y : α} (op : Operator) (hx : HasValue left x)
      (hy : HasValue right y) :
      HasValue (node left (.operator op) right) (op.apply x y)

theorem operandValue_eq_ok_iff {t : Tree α} {value : α} :
    t.operandValue = .ok value ↔ HasValue t value := by
  constructor
  · intro h
    induction t generalizing value with
    | empty => cases h
    | node left symbol right ihleft ihright =>
      cases symbol with
      | number own =>
        cases h
        exact .number left value right
      | operator op =>
        obtain ⟨x, y, hx, hy, rfl⟩ := operandValue_node_eq_ok_iff.mp h
        exact .operator op (ihleft hx) (ihright hy)
  · intro h
    induction h with
    | number left value right => rfl
    | operator op hx hy ihx ihy => exact operandValue_node_eq_ok_iff.mpr ⟨_, _, ihx, ihy, rfl⟩

theorem operandValue_ok_or_error (t : Tree α) :
    (∃ value, t.operandValue = .ok value) ∨ t.operandValue = .error .missingOperand := by
  cases hvalue : t.operandValue with
  | ok value => exact .inl ⟨value, rfl⟩
  | error error => exact .inr (congrArg _ (eq_missingOperand_of_operandValue hvalue))

theorem operandValue_operator_eq_error_iff {left right : Tree α} {op : Operator} :
    (node left (.operator op) right).operandValue = .error .missingOperand ↔
      left.operandValue = .error .missingOperand ∨ right.operandValue = .error .missingOperand := by
  rw [operandValue]
  obtain ⟨x, hx⟩ | hx := operandValue_ok_or_error left
  · obtain ⟨y, hy⟩ | hy := operandValue_ok_or_error right
    · simp [hx, hy, Except.bind]
    · simp [hx, hy, Except.bind]
  · simp [hx, Except.bind]

theorem operandValue_eq_error_iff {t : Tree α} :
    t.operandValue = .error .missingOperand ↔ t = empty ∨ ∃ s, Reached t s ∧
      ∃ side, s.child side = empty := by
  induction t with
  | empty => exact ⟨fun _ => .inl rfl, fun _ => rfl⟩
  | node left symbol right ihleft ihright =>
    cases symbol with
    | number value => simp [operandValue, not_reached_number]
    | operator op =>
      rw [operandValue_operator_eq_error_iff, ihleft, ihright]
      constructor
      · rintro ((rfl | ⟨s, hs, hchild⟩) | (rfl | ⟨s, hs, hchild⟩))
        · exact .inr ⟨_, reached_operator_iff.mpr (.inl rfl), .left, rfl⟩
        · exact .inr ⟨s, reached_operator_iff.mpr (.inr (.inl hs)), hchild⟩
        · exact .inr ⟨_, reached_operator_iff.mpr (.inl rfl), .right, rfl⟩
        · exact .inr ⟨s, reached_operator_iff.mpr (.inr (.inr hs)), hchild⟩
      · rintro (hempty | ⟨s, hs, side, hchild⟩)
        · cases hempty
        · obtain rfl | hs | hs := reached_operator_iff.mp hs
          · cases side with
            | left => exact .inl (.inl hchild)
            | right => exact .inr (.inl hchild)
          · exact .inl (.inr ⟨s, hs, side, hchild⟩)
          · exact .inr (.inr ⟨s, hs, side, hchild⟩)

theorem operandValue_pruned (t : Tree α) : t.pruned.operandValue = t.operandValue := by
  induction t with
  | empty => rfl
  | node left symbol right ihleft ihright =>
    cases symbol with
    | number value => rfl
    | operator op => rw [pruned, operandValue, operandValue, ihleft, ihright]

theorem operationValue_pruned (t : Tree α) : t.pruned.operationValue = t.operationValue := by
  cases t with
  | empty => rfl
  | node left symbol right =>
    cases symbol with
    | number value => rfl
    | operator op =>
        rw [operationValue_operator, ← operandValue_pruned, pruned, operationValue_operator]

theorem evaluate_pruned (t : Tree α) : t.pruned.evaluate = t.evaluate := by
  cases t with
  | empty => rfl
  | node left symbol right =>
    cases symbol with
    | number value => rfl
    | operator op => exact operationValue_pruned (node left (.operator op) right)

end Tree

/-! ### The states of a walk -/

namespace Walk

/-- No pending combination lacks an operand, and a single one is left. -/
def CallsFor : List (Visit α) → Nat → Prop
  | [], count => count = 1
  | .enter _ :: pending, count => CallsFor pending (count + 1)
  | .combine _ :: pending, count => ∃ rest, count = rest + 2 ∧ CallsFor pending (rest + 1)

/-- Only numbers wait, and as many as are called for. -/
structure Sound (walk : Walk α) : Prop where
  isOperator_eq_false : ∀ operand ∈ walk.operands, operand.isOperator = false
  callsFor : CallsFor walk.pending walk.operands.length

theorem Sound.exists_operands {op : Operator} {pending : List (Visit α)}
    {operands : List (Symbol α)} (h : Sound ⟨.combine op :: pending, operands⟩) :
    ∃ x y rest, operands = .number y :: .number x :: rest ∧ CallsFor pending (rest.length + 1) := by
  obtain ⟨hnumbers, count, hlength, hcalls⟩ := h
  match operands with
  | [] | [_] => simp at hlength
  | right :: left :: rest =>
    obtain ⟨y, rfl⟩ := Symbol.isOperator_eq_false_iff.mp (hnumbers right (by simp))
    obtain ⟨x, rfl⟩ := Symbol.isOperator_eq_false_iff.mp (hnumbers left (by simp))
    have hcount : rest.length = count := by simpa using hlength
    rw [← hcount] at hcalls
    exact ⟨x, y, rest, rfl, hcalls⟩

theorem Sound.exists_value {operands : List (Symbol α)} (h : Sound ⟨[], operands⟩) :
    ∃ value, operands = [.number value] := by
  obtain ⟨operand, rfl⟩ := List.length_eq_one_iff.mp h.callsFor
  obtain ⟨value, rfl⟩ := Symbol.isOperator_eq_false_iff.mp (h.isOperator_eq_false operand (by simp))
  exact ⟨value, rfl⟩

variable [Number α]

/-- The next visit is made. -/
def Step (walk after : Walk α) : Prop :=
  ∃ next pending, walk.pending = next :: pending ∧ visit next ⟨pending, walk.operands⟩ = .ok after

/-- A number is entered, an operator with both children is, or two operands are combined. -/
theorem step_cases {walk after : Walk α} (h : Step walk after) :
    (∃ left value right pending operands,
        walk = ⟨.enter (.node left (.number value) right) :: pending, operands⟩ ∧
        after = ⟨pending, .number value :: operands⟩) ∨
      (∃ left op right pending operands,
        walk = ⟨.enter (.node left (.operator op) right) :: pending, operands⟩ ∧
        left ≠ .empty ∧ right ≠ .empty ∧
        after = ⟨.enter left :: .enter right :: .combine op :: pending, operands⟩) ∨
      ∃ op pending right left operands value,
        walk = ⟨.combine op :: pending, right :: left :: operands⟩ ∧
        left.combine op right = .ok value ∧ after = ⟨pending, value :: operands⟩ := by
  obtain ⟨pending, operands⟩ := walk
  obtain ⟨next, rest, hpending, hvisit⟩ := h
  cases hpending
  match next, operands with
  | .enter .empty, _ => cases hvisit
  | .enter (.node left (.number value) right), operands =>
    cases hvisit
    exact .inl ⟨left, value, right, rest, operands, rfl, rfl⟩
  | .enter (.node left (.operator op) right), operands =>
    by_cases hempty : left = .empty ∨ right = .empty
    · cases (visit_operator_of_empty op _ hempty).symm.trans hvisit
    · obtain ⟨hleft, hright⟩ := not_or.mp hempty
      cases (visit_operator op _ hleft hright).symm.trans hvisit
      exact .inr (.inl ⟨left, op, right, rest, operands, rfl, hleft, hright, rfl⟩)
  | .combine _, [] | .combine _, [_] => cases hvisit
  | .combine op, right :: left :: operands =>
    obtain ⟨value, hvalue, rfl⟩ := map_eq_ok_iff.mp hvisit
    exact .inr (.inr ⟨op, rest, right, left, operands, value, rfl, hvalue, rfl⟩)

/-- A walk that an evaluation of the tree comes through. -/
def Passes (t : Tree α) (walk : Walk α) : Prop := Relation.ReflTransGen Step ⟨[.enter t], []⟩ walk

theorem run_of_step {walk after : Walk α} (h : Step walk after) : after.run = walk.run := by
  obtain ⟨pending, operands⟩ := walk
  obtain ⟨next, rest, hpending, hvisit⟩ := h
  cases hpending
  rw [run_cons, hvisit]
  rfl

theorem Passes.run_eq {t : Tree α} {walk : Walk α} (h : Passes t walk) :
    walk.run = run ⟨[.enter t], []⟩ := by
  induction h with
  | refl => rfl
  | tail _ hstep ih => rw [run_of_step hstep, ih]

theorem Sound.step {walk after : Walk α} (h : walk.Sound) (hstep : Step walk after) :
    after.Sound := by
  obtain ⟨left, value, right, pending, operands, rfl, rfl⟩ |
    ⟨left, op, right, pending, operands, rfl, -, -, rfl⟩ |
    ⟨op, pending, right, left, operands, value, rfl, hvalue, rfl⟩ := step_cases hstep
  · refine ⟨fun operand hmem => ?_, h.callsFor⟩
    obtain rfl | hmem := List.mem_cons.mp hmem
    · rfl
    · exact h.isOperator_eq_false operand hmem
  · exact ⟨h.isOperator_eq_false, operands.length, rfl, h.callsFor⟩
  · obtain ⟨x, y, others, hoperands, hcalls⟩ := h.exists_operands
    cases hoperands
    cases hvalue
    refine ⟨fun operand hmem => ?_, hcalls⟩
    obtain rfl | hmem := List.mem_cons.mp hmem
    · rfl
    · exact h.isOperator_eq_false operand (List.mem_cons_of_mem _ (List.mem_cons_of_mem _ hmem))

theorem Passes.sound {t : Tree α} {walk : Walk α} (h : Passes t walk) : walk.Sound := by
  induction h with
  | refl => exact ⟨nofun, rfl⟩
  | tail _ hstep ih => exact ih.step hstep

end Walk

namespace Tree

variable [Number α]

/-- An operation has the value of the operators that are reached, unless one of them lacks a child.
Nothing below a number has a part in it. -/
theorem operationValue_cases (t : Tree α) :
    (t = empty → t.evaluate = .ok Number.zero) ∧
      (∀ left value right, t = node left (.number value) right →
        t.operationValue = .error .numberIsNoOperator ∧ t.evaluate = .ok value) ∧
      (∀ left op right, t = node left (.operator op) right →
        t.operationValue = t.operandValue ∧ t.evaluate = t.operationValue ∧
          (t.operationValue = .error .missingOperand ↔ ∃ s, Reached t s ∧
            ∃ side, s.child side = empty) ∧
          ((¬ ∃ s, Reached t s ∧ ∃ side, s.child side = empty) →
            ∃ value, HasValue t value ∧ t.operationValue = .ok value)) ∧
      t.operationValue ≠ .error .operandIsOperator ∧
      (∀ t' : Tree α, t'.pruned = t.pruned → t'.operationValue = t.operationValue ∧
        t'.evaluate = t.evaluate) ∧
      ∀ walk, Walk.Passes t walk → walk.run = Walk.run ⟨[.enter t], []⟩ ∧
        (∀ op pending, walk.pending = .combine op :: pending →
          ∃ x y operands, walk.operands = .number y :: .number x :: operands) ∧
        (walk.pending = [] → ∃ value, walk.operands = [.number value]) := by
  refine ⟨?_, ?_, ?_, ?_, ?_, ?_⟩
  · rintro rfl
    rfl
  · rintro left value right rfl
    exact ⟨rfl, rfl⟩
  · rintro left op right rfl
    have hmissing : (node left (.operator op) right).operationValue = .error .missingOperand ↔
        ∃ s, Reached (node left (.operator op) right) s ∧ ∃ side, s.child side = empty := by
      rw [operationValue_operator, operandValue_eq_error_iff]
      exact or_iff_right nofun
    refine ⟨operationValue_operator left op right, rfl, hmissing, fun hcomplete => ?_⟩
    rw [← hmissing, operationValue_operator] at hcomplete
    obtain ⟨value, hvalue⟩ := (operandValue_ok_or_error _).resolve_right hcomplete
    exact ⟨value, operandValue_eq_ok_iff.mp hvalue,
      (operationValue_operator left op right).trans hvalue⟩
  · intro hoperator
    rcases t with _ | ⟨left, _ | op, right⟩
    · cases hoperator.symm.trans (run_enter_eq_operandValue empty)
    · cases hoperator
    · rw [operationValue_operator] at hoperator
      cases eq_missingOperand_of_operandValue hoperator
  · intro t' hpruned
    constructor
    · rw [← operationValue_pruned t', hpruned, operationValue_pruned]
    · rw [← evaluate_pruned t', hpruned, evaluate_pruned]
  · intro walk hpasses
    refine ⟨hpasses.run_eq, fun op pending hpending => ?_, fun hpending => ?_⟩
    · obtain ⟨visits, operands⟩ := walk
      cases hpending
      obtain ⟨x, y, rest, hoperands, -⟩ := hpasses.sound.exists_operands
      exact ⟨x, y, rest, hoperands⟩
    · obtain ⟨visits, operands⟩ := walk
      cases hpending
      exact hpasses.sound.exists_value

/-- Five less three with a division below, and a sum that lacks an operand. -/
theorem operationValue_below_number :
    (∃ t : Tree Float, t = node (leaf (.number 5)) (.operator .subtract)
        (node empty (.number 3) (leaf (.operator .divide))) ∧
      (¬ ∃ s, Reached t s ∧ ∃ side, s.child side = empty) ∧ t.operationValue = .ok 2 ∧
      t.evaluate = .ok 2) ∧
      ∃ t : Tree Float, t = node (leaf (.number 2)) (.operator .add)
        (node (leaf (.number 1)) (.operator .subtract) empty) ∧
        (∃ s, Reached t s ∧ ∃ side, s.child side = empty) ∧
        t.operationValue = .error .missingOperand := by
  constructor
  · obtain ⟨-, -, hoperation, -⟩ := operationValue_cases
      (node (leaf (.number (5 : Float))) (.operator .subtract)
        (node empty (.number 3) (leaf (.operator .divide))))
    obtain ⟨hoperand, hevaluate, -, hvalue⟩ := hoperation _ _ _ rfl
    have hcomplete : ¬ ∃ s, Reached (node (leaf (.number (5 : Float))) (.operator .subtract)
        (node empty (.number 3) (leaf (.operator .divide)))) s ∧ ∃ side, s.child side = empty := by
      rintro ⟨s, hs, side, hchild⟩
      obtain rfl | hs | hs := reached_operator_iff.mp hs
      · cases side <;> cases hchild
      · exact not_reached_number hs
      · exact not_reached_number hs
    obtain ⟨value, -, hok⟩ := hvalue hcomplete
    have htwo : Except.ok value = Except.ok (ε := Error) 2 :=
      (hok.symm.trans hoperand).trans (by decide +kernel)
    cases htwo
    exact ⟨_, rfl, hcomplete, hok, hevaluate.trans hok⟩
  · obtain ⟨-, -, hoperation, -⟩ := operationValue_cases
      (node (leaf (.number (2 : Float))) (.operator .add)
        (node (leaf (.number 1)) (.operator .subtract) empty))
    obtain ⟨-, -, hmissing, -⟩ := hoperation _ _ _ rfl
    have hreached : Reached (node (leaf (.number (2 : Float))) (.operator .add)
        (node (leaf (.number 1)) (.operator .subtract) empty))
        (node (leaf (.number 1)) (.operator .subtract) empty) :=
      reached_operator_iff.mpr (.inr (.inr (.root ⟨_, _, _, rfl⟩)))
    exact ⟨_, rfl, ⟨_, hreached, .right, rfl⟩, hmissing.mpr ⟨_, hreached, .right, rfl⟩⟩

end Tree

end InfixArith
