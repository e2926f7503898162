import InfixArith.Proofs.Walks
/-!
# How many operands wait

When an evaluation enters a tree, one operand waits for every step to the right on the way there:
the left operand of the operator at which the step was taken. In a grouped tree every such step
leads to operators that bind tighter, and there are three precedences, so a way through operators
goes right three times at most and four operands are the most that ever wait. The visits that are
pending have no such bound. They grow with every step to the left, and operators that bind no
tighter than those before them build a tree that goes left as often as there are operators.
-/

namespace InfixArith

open Sequence (operators)

variable {α : Type}

namespace Sequence

/-- A number followed by operators, each with the number behind it. -/
def ofEntries (first : α) (entries : List (Operator × α)) : List (Symbol α) :=
  .number first :: entries.flatMap fun entry => [.operator entry.1, .number entry.2]

theorem ofEntries_concat (first : α) (entries : List (Operator × α)) (entry : Operator × α) :
    ofEntries first (entries ++ [entry]) =
      ofEntries first entries ++ .operator entry.1 :: [.number entry.2] := by
  simp [ofEntries]

theorem saturated_ofEntries (first : α) (entries : List (Operator × α)) :
    Saturated (ofEntries first entries) := by
  induction entries using List.reverseRecOn with
  | nil =>
      exact saturated_of_numbers (List.cons_ne_nil _ _) (by simp [ofEntries, Symbol.isOperator])
  | append_singleton entries entry ih =>
    rw [ofEntries_concat, saturated_append_operator]
    exact ⟨ih, saturated_of_numbers (List.cons_ne_nil _ _) (by simp [Symbol.isOperator])⟩

theorem operators_ofEntries (first : α) (entries : List (Operator × α)) :
    operators (ofEntries first entries) = entries.map Prod.fst := by
  induction entries using List.reverseRecOn with
  | nil => rfl
  | append_singleton entries entry ih =>
    rw [ofEntries_concat, operators_append, ih, List.map_append]
    rfl

end Sequence

namespace Tree

/-- Every node before the end of the path is an operator. -/
def ThroughOperators : Tree α → List Side → Prop
  | _, [] => True
  | t, side :: path => t.IsOperation ∧ (t.child side).ThroughOperators path

/-- A way through operators leads to the tree, with so many steps to the right. -/
def LeadsTo (t : Tree α) (rights : Nat) (s : Tree α) : Prop :=
  ∃ path, t.ThroughOperators path ∧ t.subtree path = s ∧ path.count .right = rights

/-- Every operator that is reached has both children. -/
def HasOperands (t : Tree α) : Prop := ∀ s, Reached t s → ∀ side, s.child side ≠ empty

theorem HasOperands.of_operator {left right : Tree α} {op : Operator}
    (h : (node left (.operator op) right).HasOperands) :
    left ≠ empty ∧ right ≠ empty ∧ left.HasOperands := by
  have hroot := h _ (reached_operator_iff.mpr (.inl rfl))
  refine ⟨hroot .left, hroot .right, fun s hs => ?_⟩
  exact h s (reached_operator_iff.mpr (.inr (.inl hs)))

theorem hasOperands_of_operandValue [Number α] {t : Tree α} {value : α}
    (h : t.operandValue = .ok value) :
    t.HasOperands := by
  intro s hs side hchild
  have hmissing := operandValue_eq_error_iff.mpr (.inr ⟨s, hs, side, hchild⟩)
  cases h.symm.trans hmissing

/-! ### Steps to the right -/

theorem isOperation_iff {t : Tree α} : t.IsOperation ↔ ∃ op, t.symbol? = some (.operator op) := by
  cases t <;> simp [IsOperation, symbol?]

theorem ThroughOperators.isOperation {t : Tree α} {path : List Side} (h : t.ThroughOperators path)
    (hend : (t.subtree path).IsOperation) : t.IsOperation := by
  cases path with
  | nil => exact hend
  | cons side path => exact h.1

theorem ThroughOperators.concat {t : Tree α} {path : List Side} (h : t.ThroughOperators path)
    (hend : (t.subtree path).IsOperation) (side : Side) : t.ThroughOperators (path ++ [side]) := by
  induction path generalizing t with
  | nil => exact ⟨hend, trivial⟩
  | cons step path ih => exact ⟨h.1, ih h.2 hend⟩

theorem ThroughOperators.of_concat {t : Tree α} {path : List Side} {side : Side}
    (h : t.ThroughOperators (path ++ [side])) :
    t.ThroughOperators path ∧ (t.subtree path).IsOperation := by
  induction path generalizing t with
  | nil => exact ⟨trivial, h.1⟩
  | cons step path ih =>
    obtain ⟨hroot, hbelow⟩ := h
    exact ⟨⟨hroot, (ih hbelow).1⟩, (ih hbelow).2⟩

theorem LeadsTo.child {t s : Tree α} {rights : Nat} (h : t.LeadsTo rights s) (hs : s.IsOperation)
    (side : Side) :
    t.LeadsTo (rights + [side].count .right) (s.child side) := by
  obtain ⟨path, hpath, rfl, rfl⟩ := h
  refine ⟨path ++ [side], hpath.concat hs side, ?_, List.count_append⟩
  rw [subtree_append, subtree_cons, subtree_nil]

theorem Grouped.child {t : Tree α} (h : t.Grouped) (side : Side) : (t.child side).Grouped := by
  cases t with
  | empty => exact trivial
  | node left symbol right =>
    cases side with
    | left => exact h.2.1
    | right => exact h.2.2

theorem mem_operators_of_symbol? {t : Tree α} {op : Operator}
    (h : t.symbol? = some (.operator op)) :
    op ∈ operators t.symbols := by
  cases t with
  | empty => cases h
  | node left symbol right =>
    cases h
    simp [symbols]

theorem Grouped.precedence_le_child {t : Tree α} (h : t.Grouped) {op below : Operator} {side : Side}
    (hroot : t.symbol? = some (.operator op))
    (hbelow : (t.child side).symbol? = some (.operator below)) :
    op.precedence + [side].count .right ≤ below.precedence := by
  cases t with
  | empty => cases hroot
  | node left symbol right =>
    cases hroot
    obtain ⟨⟨hleft, hright⟩, -⟩ := h
    cases side with
    | left => exact hleft below (mem_operators_of_symbol? hbelow)
    | right => exact hright below (mem_operators_of_symbol? hbelow)

/-- Every step to the right adds to how tightly operators bind. -/
theorem Grouped.precedence_add_count_le {t : Tree α} (h : t.Grouped) {path : List Side}
    (hpath : t.ThroughOperators path)
    {op below : Operator} (hroot : t.symbol? = some (.operator op))
    (hend : (t.subtree path).symbol? = some (.operator below)) :
    op.precedence + path.count .right ≤ below.precedence := by
  induction path generalizing t op with
  | nil =>
    cases hroot.symm.trans hend
    exact Nat.le_refl _
  | cons side path ih =>
    obtain ⟨next, hnext⟩ :=
      isOperation_iff.mp (hpath.2.isOperation (isOperation_iff.mpr ⟨below, hend⟩))
    have hstep := h.precedence_le_child hroot hnext
    have hrest := ih (h.child side) hpath.2 hnext hend
    rw [← List.singleton_append, List.count_append]
    omega

theorem Grouped.count_right_le {t : Tree α} (h : t.Grouped) {path : List Side}
    (hpath : t.ThroughOperators path) :
    path.count .right ≤ 3 := by
  obtain rfl | ⟨before, side, rfl⟩ := path.eq_nil_or_concat'
  · exact Nat.zero_le _
  · -- Before the last step the path still leads to an operator.
    obtain ⟨hbefore, hend⟩ := hpath.of_concat
    obtain ⟨op, hroot⟩ := isOperation_iff.mp (hbefore.isOperation hend)
    obtain ⟨below, hbelow⟩ := isOperation_iff.mp hend
    have hsum := h.precedence_add_count_le hbefore hroot hbelow
    have htightest := below.precedence_le_two
    have hlast : [side].count .right ≤ 1 := List.count_le_length
    rw [List.count_append]
    omega

/-! ### A tree that goes left -/

/-- Operators that bind no tighter than those before them go to the left. -/
theorem throughOperators_left_ofSymbols (first : α) {entries : List (Operator × α)}
    (h : entries.Pairwise fun earlier later => later.1.precedence ≤ earlier.1.precedence) :
    (ofSymbols (Sequence.ofEntries first entries)).ThroughOperators
      (List.replicate entries.length .left) := by
  induction entries using List.reverseRecOn with
  | nil => exact trivial
  | append_singleton entries entry ih =>
    obtain ⟨hentries, -, hlast⟩ := List.pairwise_append.mp h
    -- The last operator takes over everything before it.
    have htree : ofSymbols (Sequence.ofEntries first (entries ++ [entry])) =
        node (ofSymbols (Sequence.ofEntries first entries)) (.operator entry.1)
          (leaf (.number entry.2)) := by
      rw [Sequence.ofEntries_concat]
      apply ofSymbols_append_operator
      · intro own hown
        rw [Sequence.operators_ofEntries] at hown
        obtain ⟨earlier, hmem, rfl⟩ := List.mem_map.mp hown
        exact hlast earlier hmem entry List.mem_cons_self
      · exact nofun
    rw [htree, List.length_append, List.length_singleton, List.replicate_succ]
    exact ⟨⟨_, _, _, rfl⟩, ih hentries⟩

end Tree

/-! ### Waiting operands and pending visits -/

namespace Walk

/-- Each pending visit to a tree is at the end of a way through operators, with a step to the right
for every operand that waits by then. -/
def FollowsPaths (t : Tree α) : List (Visit α) → Nat → Prop
  | [], _ => True
  | .enter s :: pending, waiting => t.LeadsTo waiting s ∧ FollowsPaths t pending (waiting + 1)
  | .combine _ :: pending, waiting => FollowsPaths t pending (waiting - 1)

variable [Number α] {t : Tree α} {walk after : Walk α}

theorem FollowsPaths.step (h : FollowsPaths t walk.pending walk.operands.length)
    (hstep : Step walk after) :
    FollowsPaths t after.pending after.operands.length := by
  obtain ⟨left, value, right, pending, operands, rfl, rfl⟩ |
    ⟨left, op, right, pending, operands, rfl, -, -, rfl⟩ |
    ⟨op, pending, right, left, operands, value, rfl, -, rfl⟩ := step_cases hstep
  · exact h.2
  · obtain ⟨hlead, hrest⟩ := h
    have hoperation : (Tree.node left (.operator op) right).IsOperation := ⟨left, op, right, rfl⟩
    exact ⟨hlead.child hoperation .left, hlead.child hoperation .right, hrest⟩
  · exact h

theorem Passes.followsPaths (h : Passes t walk) :
    FollowsPaths t walk.pending walk.operands.length := by
  induction h with
  | refl => exact ⟨⟨[], trivial, rfl, rfl⟩, trivial⟩
  | tail _ hstep ih => exact ih.step hstep

/-- Only an entered number adds an operand, and the way to it counts those that wait. -/
theorem length_operands_step {most : Nat}
    (hmost : ∀ path, t.ThroughOperators path → path.count .right ≤ most)
    (h : FollowsPaths t walk.pending walk.operands.length) (hle : walk.operands.length ≤ most + 1)
    (hstep : Step walk after) : after.operands.length ≤ most + 1 := by
  obtain ⟨left, value, right, pending, operands, rfl, rfl⟩ |
    ⟨left, op, right, pending, operands, rfl, -, -, rfl⟩ |
    ⟨op, pending, right, left, operands, value, rfl, -, rfl⟩ := step_cases hstep
  · obtain ⟨⟨path, hpath, -, hcount⟩, -⟩ := h
    exact Nat.succ_le_succ (hcount ▸ hmost path hpath)
  · exact hle
  · exact Nat.le_of_succ_le hle

theorem Passes.length_operands_le {most : Nat}
    (hmost : ∀ path, t.ThroughOperators path → path.count .right ≤ most)
    (h : Passes t walk) : walk.operands.length ≤ most + 1 := by
  induction h with
  | refl => exact Nat.zero_le _
  | tail hpasses hstep ih => exact length_operands_step hmost (Passes.followsPaths hpasses) ih hstep

/-- Each step to the left leaves two visits pending, and no operand waits for it. -/
theorem exists_pending_left {t : Tree α} {steps : Nat} (hoperands : t.HasOperands)
    (h : t.ThroughOperators (List.replicate steps .left)) (pending : List (Visit α))
    (operands : List (Symbol α)) :
    ∃ left : List (Visit α), left.length = 2 * steps ∧
      Relation.ReflTransGen Step ⟨.enter t :: pending, operands⟩
        ⟨.enter (t.subtree (List.replicate steps .left)) :: (left ++ pending), operands⟩ := by
  induction steps generalizing t pending with
  | zero => exact ⟨[], rfl, .refl⟩
  | succ steps ih =>
    obtain ⟨⟨left, op, right, rfl⟩, hbelow⟩ := h
    obtain ⟨hleft, hright, hrest⟩ := hoperands.of_operator
    obtain ⟨entered, hlength, hsteps⟩ := ih hrest hbelow (.enter right :: .combine op :: pending)
    refine ⟨entered ++ [.enter right, .combine op], ?_, ?_⟩
    · rw [List.length_append, hlength]
      rfl
    · rw [List.append_assoc]
      exact .head ⟨_, _, rfl, visit_operator op _ hleft hright⟩ hsteps

theorem exists_passes_left {t : Tree α} {steps : Nat} (hoperands : t.HasOperands)
    (h : t.ThroughOperators (List.replicate steps .left)) :
    ∃ walk, Passes t walk ∧ walk.operands = [] ∧ walk.pending.length = 2 * steps + 1 := by
  obtain ⟨left, hlength, hsteps⟩ := exists_pending_left hoperands h [] []
  refine ⟨_, hsteps, rfl, ?_⟩
  rw [List.append_nil, List.length_cons, hlength]

end Walk

namespace Tree

variable [Number α]

/-- At most four operands wait, while each step to the left leaves two visits pending. -/
theorem length_operands_le_four (sequence : List (Symbol α)) :
    (∀ path, (ofSymbols sequence).ThroughOperators path → path.count .right ≤ 3) ∧
      (∀ walk, Walk.Passes (ofSymbols sequence) walk →
        (∀ operand ∈ walk.operands, operand.isOperator = false) ∧
          walk.operands.length ≤ 4 ∧ walk.operands.length ≤ Walk.inlineSlots ∧
          ∀ s pending, walk.pending = .enter s :: pending →
            (ofSymbols sequence).LeadsTo walk.operands.length s) ∧
      (∀ steps, (ofSymbols sequence).HasOperands →
        (ofSymbols sequence).ThroughOperators (List.replicate (steps + 1) .left) →
        ∃ walk, Walk.Passes (ofSymbols sequence) walk ∧ walk.operands = [] ∧
          walk.pending.length = 2 * (steps + 1) + 1) ∧
      ∀ steps, ∃ (deep : List (Symbol α)) (walk : Walk α), (ofSymbols deep).HasOperands ∧
        (ofSymbols deep).ThroughOperators (List.replicate (steps + 1) .left) ∧
        Walk.Passes (ofSymbols deep) walk ∧ walk.operands = [] ∧
        walk.pending.length = 2 * (steps + 1) + 1 := by
  have hright : ∀ path, (ofSymbols sequence).ThroughOperators path → path.count .right ≤ 3 :=
    fun path => (grouped_ofSymbols sequence).count_right_le
  refine ⟨hright, fun walk hpasses => ?_, fun steps => Walk.exists_passes_left, fun steps => ?_⟩
  · have hfour : walk.operands.length ≤ 4 := hpasses.length_operands_le hright
    refine ⟨hpasses.sound.isOperator_eq_false, hfour, Nat.le_trans hfour (by decide), ?_⟩
    intro s pending hpending
    have hfollows := hpasses.followsPaths
    rw [hpending] at hfollows
    exact hfollows.1
  · have hlevel : (List.replicate (steps + 1) (Operator.add, (Number.zero : α))).Pairwise
        fun earlier later => later.1.precedence ≤ earlier.1.precedence :=
      List.pairwise_replicate.mpr (.inr (Nat.le_refl _))
    have hleft := throughOperators_left_ofSymbols Number.zero hlevel
    rw [List.length_replicate] at hleft
    obtain ⟨value, hvalue⟩ := exists_value_of_saturated (Sequence.saturated_ofEntries
      (Number.zero : α) (List.replicate (steps + 1) (Operator.add, (Number.zero : α))))
    have hchildren := hasOperands_of_operandValue hvalue
    obtain ⟨walk, hpasses, hoperands, hlength⟩ := Walk.exists_passes_left hchildren hleft
    exact ⟨_, walk, hchildren, hleft, hpasses, hoperands, hlength⟩

/-- All four operands wait once the exponent behind three operators has been entered. -/
theorem length_operands_le_four_power :
    ∃ (sequence : List (Symbol Float)) (walk : Walk Float),
      sequence = [.number 1, .operator .add, .number 2, .operator .multiply, .number 3,
        .operator .power, .number 4] ∧
      (ofSymbols sequence).ThroughOperators [.right, .right, .right] ∧
      [Side.right, .right, .right].count .right ≤ 3 ∧
      Walk.Passes (ofSymbols sequence) walk ∧
      walk.operands = [.number 4, .number 3, .number 2, .number 1] ∧ walk.operands.length ≤ 4 ∧
      (ofSymbols sequence).HasOperands ∧ (ofSymbols sequence).ThroughOperators [.left] ∧
      ∃ walk, Walk.Passes (ofSymbols sequence) walk ∧ walk.operands = [] ∧
        walk.pending.length = 3 := by
  obtain ⟨hright, hoperands, hleft, -⟩ :=
    length_operands_le_four [.number (1 : Float), .operator .add, .number 2, .operator .multiply,
      .number 3, .operator .power, .number 4]
  have hthrough : (ofSymbols [.number (1 : Float), .operator .add, .number 2, .operator .multiply,
      .number 3, .operator .power, .number 4]).ThroughOperators [.right, .right, .right] :=
    ⟨⟨_, _, _, rfl⟩, ⟨_, _, _, rfl⟩, ⟨_, _, _, rfl⟩, trivial⟩
  have hpasses : Walk.Passes (ofSymbols [.number (1 : Float), .operator .add, .number 2,
      .operator .multiply, .number 3, .operator .power, .number 4])
      ⟨[.combine .power, .combine .multiply, .combine .add],
        [.number 4, .number 3, .number 2, .number 1]⟩ :=
    .head ⟨_, _, rfl, rfl⟩ <| .head ⟨_, _, rfl, rfl⟩ <| .head ⟨_, _, rfl, rfl⟩ <|
      .head ⟨_, _, rfl, rfl⟩ <| .head ⟨_, _, rfl, rfl⟩ <| .head ⟨_, _, rfl, rfl⟩ <|
      .head ⟨_, _, rfl, rfl⟩ .refl
  have hchildren : (ofSymbols [.number (1 : Float), .operator .add, .number 2, .operator .multiply,
      .number 3, .operator .power, .number 4]).HasOperands := hasOperands_of_operandValue rfl
  have hside : (ofSymbols [.number (1 : Float), .operator .add, .number 2, .operator .multiply,
      .number 3, .operator .power, .number 4]).ThroughOperators [.left] := ⟨⟨_, _, _, rfl⟩, trivial⟩
  exact ⟨_, _, rfl, hthrough, hright _ hthrough, hpasses, rfl, (hoperands _ hpasses).2.1, hchildren,
    hside, hleft 0 hchildren hside⟩

end Tree

end InfixArith
