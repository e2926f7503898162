import InfixArith.Number.Ieee
import InfixArith.Proofs.Operands
import InfixArith.Reduction
/-!
# Two stacks reduce to the value of the tree

A sequence is evaluated by its tree, and with two stacks by reducing as it is read. The two agree
because both follow the operators of the grouped tree: when the symbols of a subtree have been read,
the operators that they left on the stack are operators of the subtree, and applying these leaves
the value of the subtree on what was there before. Whatever is read next applies them first, since
it does not bind tighter.

What the stacks have no say in is a sequence that is not saturated. There some operator of the tree
lacks an operand, and that is the only way in which a sequence can fail.
-/

namespace InfixArith

open Sequence (operators numbers collapse Saturated Spells)

variable {α : Type} [Number α]

namespace Reduction

/-- Evaluates numbers and operators that are given apart. -/
def evaluateApart? (values : List α) (ops : List Operator) : Option α :=
  match values with
  | [] => none
  | first :: rest => evaluate? first (ops.zip rest)

def pushAll (reduction : Reduction α) (entries : List (Operator × α)) : Reduction α :=
  entries.foldl (fun reduction entry => reduction.push entry.1 entry.2) reduction

def reduceAll (ops : List Operator) (values : List α) : List α :=
  ops.foldl (fun values op => reduce op values) values

theorem pushAll_append_cons (reduction : Reduction α) (entries entries' : List (Operator × α))
    (op : Operator) (value : α) :
    reduction.pushAll (entries ++ (op, value) :: entries') =
      ((reduction.pushAll entries).push op value).pushAll entries' := by
  rw [pushAll, List.foldl_append]
  rfl

theorem reduceAll_append (ops ops' : List Operator) (values : List α) :
    reduceAll (ops ++ ops') values = reduceAll ops' (reduceAll ops values) := List.foldl_append

/-! ### Neither stack runs out -/

/-- Each pending operator has a value below it and one above. -/
def Balanced (reduction : Reduction α) : Prop :=
  reduction.values.length = reduction.pending.length + 1

omit [Number α] in
theorem balanced_start (value : α) : (start value).Balanced := rfl

theorem length_reduce (op : Operator) {values : List α} (h : 2 ≤ values.length) :
    (reduce op values).length + 1 = values.length := by
  match values with
  | [] | [_] => simp at h
  | right :: left :: values => rfl

theorem length_settledValues (op : Operator) {values : List α} {pending : List Operator}
    (h : values.length = pending.length + 1) :
    (settledValues op values pending).length = (settledOperators op pending).length + 1 := by
  induction pending generalizing values with
  | nil => exact h
  | cons top pending ih =>
    rw [settledValues, settledOperators]
    split
    · exact h
    · apply ih
      rw [List.length_cons] at h
      have hreduce : (reduce top values).length + 1 = values.length := length_reduce top (by omega)
      omega

theorem Balanced.push {reduction : Reduction α} (h : reduction.Balanced) (op : Operator)
    (value : α) :
    (reduction.push op value).Balanced :=
  congrArg (· + 1) (length_settledValues op h)

theorem Balanced.pushAll {reduction : Reduction α} (h : reduction.Balanced)
    (entries : List (Operator × α)) :
    (reduction.pushAll entries).Balanced :=
  List.foldlRecOn entries _ (motive := Balanced) h fun _ hbalanced entry _ =>
    hbalanced.push entry.1 entry.2

theorem Balanced.exists_reduceAll_eq {reduction : Reduction α} (h : reduction.Balanced) :
    ∃ value, reduceAll reduction.pending reduction.values = [value] := by
  obtain ⟨values, pending⟩ := reduction
  change values.length = pending.length + 1 at h
  induction pending generalizing values with
  | nil => exact List.length_eq_one_iff.mp h
  | cons op pending ih =>
    rw [List.length_cons] at h
    have hreduce : (reduce op values).length + 1 = values.length := length_reduce op (by omega)
    have hrest : (reduce op values).length = pending.length + 1 := by omega
    exact ih (reduce op values) hrest

theorem exists_evaluate?_eq (first : α) (entries : List (Operator × α)) :
    ∃ value, evaluate? first entries = some value := by
  have hbalanced : ((start first).pushAll entries).Balanced :=
    (balanced_start first).pushAll entries
  obtain ⟨value, hvalue⟩ := hbalanced.exists_reduceAll_eq
  refine ⟨value, ?_⟩
  change (reduceAll ((start first).pushAll entries).pending
    ((start first).pushAll entries).values).getLast? = _
  rw [hvalue]
  rfl

/-! ### Operators and what they are applied to -/

/-- What is stacked applies operators down to one that binds looser. -/
theorem push_append {op : Operator} {applied kept : List Operator}
    (happlied : ∀ own ∈ applied, op.precedence ≤ own.precedence)
    (hkept : ∀ top ∈ kept.head?, top.precedence < op.precedence) (values : List α) (value : α) :
    push ⟨values, applied ++ kept⟩ op value = ⟨value :: reduceAll applied values, op :: kept⟩ := by
  induction applied generalizing values with
  | nil =>
    cases kept with
    | nil => rfl
    | cons top kept =>
      have htighter : op.bindsTighterThan top = true :=
        Operator.bindsTighterThan_iff.mpr (hkept top rfl)
      simp only [push, List.nil_append, settledValues, settledOperators, if_pos htighter]
      rfl
  | cons own applied ih =>
    have hnot : ¬ op.bindsTighterThan own = true := by
      have hle := happlied own List.mem_cons_self
      rw [Operator.bindsTighterThan_iff]
      omega
    have hrest :=
      ih (fun other hother => happlied other (List.mem_cons_of_mem _ hother)) (reduce own values)
    simp only [push, List.cons_append, settledValues, settledOperators, if_neg hnot] at hrest ⊢
    exact hrest

/-- Read onto operators that bind looser, the entries leave operators of their own, and applying
these leaves the value. -/
def ComesTo (first : α) (entries : List (Operator × α)) (value : α) : Prop :=
  ∀ (values : List α) (pending : List Operator),
    (∀ top ∈ pending.head?, ∀ own ∈ entries.map Prod.fst, top.precedence < own.precedence) →
    ∃ (values' : List α) (left : List Operator),
      pushAll ⟨first :: values, pending⟩ entries = ⟨values', left ++ pending⟩ ∧
        (∀ op ∈ left, op ∈ entries.map Prod.fst) ∧ reduceAll left values' = value :: values

theorem ComesTo.single (value : α) : ComesTo value [] value :=
  fun values _ _ => ⟨value :: values, [], rfl, nofun, rfl⟩

theorem ComesTo.join {first second x y : α} {entries entries' : List (Operator × α)} {op : Operator}
    (hx : ComesTo first entries x) (hy : ComesTo second entries' y)
    (hle : ∀ own ∈ entries.map Prod.fst, op.precedence ≤ own.precedence)
    (hlt : ∀ own ∈ entries'.map Prod.fst, op.precedence < own.precedence) :
    ComesTo first (entries ++ (op, second) :: entries') (op.apply x y) := by
  intro values pending htop
  rw [List.map_append, List.map_cons] at htop
  have htopop : ∀ top ∈ pending.head?, top.precedence < op.precedence := fun top hmem =>
    htop top hmem op (List.mem_append_right _ List.mem_cons_self)
  obtain ⟨valuesx, leftx, hpushx, hleftx, hreducex⟩ := hx values pending fun top hmem own hown =>
    htop top hmem own (List.mem_append_left _ hown)
  obtain ⟨valuesy, lefty, hpushy, hlefty, hreducey⟩ :=
    hy (x :: values) (op :: pending) fun top hmem own hown => by
    cases hmem
    exact hlt own hown
  -- The operator applies what the left side left over, and waits below the right side.
  have hpush : pushAll ⟨first :: values, pending⟩ (entries ++ (op, second) :: entries') =
      pushAll ⟨second :: x :: values, op :: pending⟩ entries' := by
    rw [pushAll_append_cons, hpushx, push_append (fun own hown => hle own (hleftx own hown)) htopop,
      hreducex]
  refine ⟨valuesy, lefty ++ [op], ?_, fun own hown => ?_, ?_⟩
  · rw [hpush, hpushy, List.append_assoc, List.singleton_append]
  · rw [List.map_append, List.map_cons, List.mem_append, List.mem_cons]
    rcases List.mem_append.mp hown with hown | hown
    · exact Or.inr (Or.inr (hlefty own hown))
    · exact Or.inr (Or.inl (List.mem_singleton.mp hown))
  · rw [reduceAll_append, hreducey]
    rfl

theorem ComesTo.evaluate?_eq {first value : α} {entries : List (Operator × α)}
    (h : ComesTo first entries value) :
    evaluate? first entries = some value := by
  obtain ⟨values', left, hpush, -, hreduce⟩ := h [] [] nofun
  rw [List.append_nil] at hpush
  change (pushAll ⟨[first], []⟩ entries).finish? = some value
  rw [hpush]
  change (reduceAll left values').getLast? = some value
  rw [hreduce]
  rfl

theorem evaluateApart?_collapse {symbols : List (Symbol α)} {first : α}
    {entries : List (Operator × α)} (h : Spells symbols first entries) :
    evaluateApart? (numbers (collapse symbols)) (operators (collapse symbols)) =
      evaluate? first entries := by
  rw [h.1, h.2]
  exact congrArg (evaluate? first) (List.zip_of_prod rfl rfl).symm

end Reduction

namespace Tree

/-- The stacks, run over the symbols of a grouped tree, come to its value. -/
theorem Grouped.exists_comesTo {t : Tree α} (h : t.Grouped) {value : α}
    (hvalue : t.operandValue = .ok value) :
    ∃ first entries, Spells t.symbols first entries ∧ Reduction.ComesTo first entries value := by
  induction t generalizing value with
  | empty => cases hvalue
  | node left symbol right ihleft ihright =>
    cases symbol with
    | number own =>
      have hnumbers := h.isOperator_eq_false
      obtain ⟨⟨rfl, -⟩, -⟩ := h
      cases hvalue
      have hcollapse : collapse (node empty (.number value) right).symbols = [.number value] :=
        Sequence.collapse_numbers value fun symbol hsymbol =>
          hnumbers symbol (List.mem_cons_of_mem _ hsymbol)
      refine ⟨value, [], ?_, Reduction.ComesTo.single value⟩
      rw [Spells, hcollapse]
      exact ⟨rfl, rfl⟩
    | operator op =>
      obtain ⟨⟨hle, hlt⟩, hleft, hright⟩ := h
      obtain ⟨x, y, hx, hy, rfl⟩ := operandValue_node_eq_ok_iff.mp hvalue
      obtain ⟨first, entries, hspells, hcomes⟩ := ihleft hleft hx
      obtain ⟨second, entries', hspells', hcomes'⟩ := ihright hright hy
      rw [hspells.operators_eq] at hle
      rw [hspells'.operators_eq] at hlt
      exact ⟨first, entries ++ (op, second) :: entries', hspells.join hspells' op,
        hcomes.join hcomes' hle hlt⟩

/-- A saturated sequence has the value that the stacks, which never run out, reduce it to. Any other
with an operator lacks an operand. -/
theorem evaluate_ofSymbols_cases (sequence : List (Symbol α)) :
    (sequence = [] → (ofSymbols sequence).evaluate = .ok Number.zero) ∧
      (sequence ≠ [] → operators sequence = [] →
        ∃ first, sequence.head? = some (.number first) ∧
          (ofSymbols sequence).evaluate = .ok first) ∧
      (operators sequence ≠ [] → Saturated sequence →
        ∃ value,
          Reduction.evaluateApart? (numbers (collapse sequence)) (operators (collapse sequence)) =
            some value ∧
          (ofSymbols sequence).evaluate = .ok value) ∧
      (operators sequence ≠ [] → ¬ Saturated sequence →
        (ofSymbols sequence).evaluate = .error .missingOperand) ∧
      ∀ (first : α) (entries : List (Operator × α)),
        ((Reduction.start first).pushAll entries).Balanced ∧
          ∃ value, Reduction.evaluate? first entries = some value := by
  have hgrouped := grouped_ofSymbols sequence
  have hsymbols := symbols_ofSymbols sequence
  have hne : operators sequence ≠ [] → sequence ≠ [] := by
    intro hoperators hempty
    rw [hempty] at hoperators
    exact hoperators rfl
  refine ⟨?_, ?_, ?_, ?_, fun first entries => ⟨?_, Reduction.exists_evaluate?_eq first entries⟩⟩
  · intro hempty
    rw [hempty]
    rfl
  · intro hnonempty hoperators
    have hnumbers := Sequence.operators_eq_nil_iff.mp hoperators
    cases sequence with
    | nil => exact absurd rfl hnonempty
    | cons symbol rest =>
      obtain ⟨first, rfl⟩ := Symbol.isOperator_eq_false_iff.mp (hnumbers symbol List.mem_cons_self)
      refine ⟨first, rfl, ?_⟩
      rw [ofSymbols_cons_number fun below hbelow => hnumbers below (List.mem_cons_of_mem _ hbelow)]
      rfl
  · intro hoperators hsaturated
    obtain ⟨value, hvalue⟩ := exists_value_of_saturated hsaturated
    obtain ⟨first, entries, hspells, hcomes⟩ := hgrouped.exists_comesTo hvalue
    rw [hsymbols] at hspells
    refine ⟨value, ?_, (evaluate_ofSymbols (hne hoperators)).trans hvalue⟩
    rw [Reduction.evaluateApart?_collapse hspells, hcomes.evaluate?_eq]
  · intro hoperators hunsaturated
    rw [evaluate_ofSymbols (hne hoperators), hgrouped.operandValue_eq_error_iff, hsymbols]
    exact hunsaturated
  · exact (Reduction.balanced_start first).pushAll entries

/-- Ten less four halves less three, with numbers in between that do not count. -/
theorem evaluate_ofSymbols_runs_of_numbers :
    operators [.number 10, .number 99, .operator .subtract, .number 4, .operator .divide,
        .number 2, .number 5, .operator .subtract, .number (3 : Float)] ≠ [] ∧
      Saturated [.number 10, .number 99, .operator .subtract, .number 4, .operator .divide,
        .number 2, .number 5, .operator .subtract, .number (3 : Float)] ∧
      (ofSymbols [.number 10, .number 99, .operator .subtract, .number 4, .operator .divide,
        .number 2, .number 5, .operator .subtract, .number (3 : Float)]).evaluate = .ok 5 := by
  have hoperators : operators [.number 10, .number 99, .operator .subtract, .number 4,
      .operator .divide, .number 2, .number 5, .operator .subtract, .number (3 : Float)] ≠ [] :=
    List.cons_ne_nil _ _
  have hsaturated : Saturated [.number 10, .number 99, .operator .subtract, .number 4,
      .operator .divide, .number 2, .number 5, .operator .subtract, .number (3 : Float)] :=
    ⟨⟨10, rfl⟩, ⟨3, rfl⟩, by simp [Symbol.isOperator]⟩
  obtain ⟨value, hstacks, hvalue⟩ := (evaluate_ofSymbols_cases _).2.2.1 hoperators hsaturated
  have hfive : some value = some 5 := hstacks.symm.trans (by decide +kernel)
  cases hfive
  exact ⟨hoperators, hsaturated, hvalue⟩

end Tree

end InfixArith
