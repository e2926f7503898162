import InfixArith.Proofs.Sequence
import InfixArith.Tree.Insertion
import InfixArith.Tree.Listing
/-!
# How precedence groups a sequence

A sequence of symbols can be written below many trees, but only one of them is grouped: to the left
of an operator nothing binds looser, to its right everything binds tighter, and numbers stand below
numbers only as a chain to the right. Insertion keeps a tree grouped and appends its symbol, so it
finds such a tree for every sequence. There is no other because a grouped tree can be rebuilt from
its symbols: once the left tree of its root is there the root takes it over as a whole, and from
then on everything passes the root and builds the right tree.
-/

namespace InfixArith.Tree

open Sequence (operators numbers Alternating EndsWithNumber)

variable {α : Type}

/-- A condition on a left tree, a symbol and a right tree holds at all nodes. -/
def AllNodes (condition : Tree α → Symbol α → Tree α → Prop) : Tree α → Prop
  | empty => True
  | node left symbol right =>
      condition left symbol right ∧ left.AllNodes condition ∧ right.AllNodes condition

/-- Operators on the left bind at least as tightly, those on the right tighter. Below a number there
is only a chain of numbers. -/
def GroupedNode (left : Tree α) (symbol : Symbol α) (right : Tree α) : Prop :=
  match symbol with
  | .number _ => left = empty ∧ ∀ below ∈ right.symbol?, below.isOperator = false
  | .operator op =>
      (∀ own ∈ operators left.symbols, op.precedence ≤ own.precedence) ∧
        ∀ own ∈ operators right.symbols, op.precedence < own.precedence

def Grouped (t : Tree α) : Prop := t.AllNodes GroupedNode

/-- An operator has both operands, and a number stands alone. -/
def CompleteNode (left : Tree α) (symbol : Symbol α) (right : Tree α) : Prop :=
  match symbol with
  | .number _ => left = empty ∧ right = empty
  | .operator _ => left ≠ empty ∧ right ≠ empty

def Complete (t : Tree α) : Prop := t.AllNodes CompleteNode

/-! ### Insertion -/

@[simp] theorem symbols_insert (t : Tree α) (symbol : Symbol α) :
    (t.insert symbol).symbols = t.symbols ++ [symbol] := by
  induction t with
  | empty => rfl
  | node left own right _ ih =>
    rw [insert_node]
    split
    · simp only [symbols, ih, List.append_assoc, List.cons_append]
    · rfl

theorem symbols_foldl_insert (t : Tree α) (added : List (Symbol α)) :
    (added.foldl insert t).symbols = t.symbols ++ added := by
  induction added generalizing t with
  | nil => exact (List.append_nil _).symm
  | cons symbol added ih =>
      rw [List.foldl_cons, ih, symbols_insert, List.append_assoc, List.singleton_append]

@[simp] theorem symbols_ofSymbols (sequence : List (Symbol α)) :
    (ofSymbols sequence).symbols = sequence :=
  symbols_foldl_insert empty sequence

theorem Grouped.isOperator_eq_false {left right : Tree α} {value : α}
    (h : (node left (.number value) right).Grouped) :
    ∀ symbol ∈ (node left (.number value) right).symbols, symbol.isOperator = false := by
  induction right generalizing left value with
  | empty =>
    have hleft : left = empty := h.1.1
    subst hleft
    intro symbol hsymbol
    rw [List.mem_singleton.mp hsymbol]
    rfl
  | node left' symbol' right' _ ih =>
    obtain ⟨⟨hleft, hroot⟩, -, hright⟩ := h
    obtain ⟨value', rfl⟩ := Symbol.isOperator_eq_false_iff.mp (hroot symbol' rfl)
    subst hleft
    intro symbol hsymbol
    rcases List.mem_cons.mp hsymbol with rfl | hbelow
    · rfl
    · exact ih hright symbol hbelow

theorem Grouped.precedence_le {left right : Tree α} {op : Operator}
    (h : (node left (.operator op) right).Grouped) :
    ∀ own ∈ operators (node left (.operator op) right).symbols, op.precedence ≤ own.precedence := by
  obtain ⟨⟨hleft, hright⟩, -⟩ := h
  intro own hown
  rw [symbols, Sequence.operators_append, Sequence.operators_cons_operator, List.mem_append,
    List.mem_cons] at hown
  rcases hown with hown | rfl | hown
  · exact hleft own hown
  · exact Nat.le_refl _
  · exact Nat.le_of_lt (hright own hown)

theorem goesBelow_operator_iff {symbol : Symbol α} {op : Operator} :
    symbol.goesBelow (.operator op) = true ↔
      ∀ own ∈ operators [symbol], op.precedence < own.precedence := by
  cases symbol <;> simp [Symbol.goesBelow, Symbol.isLooserThan, Operator.bindsTighterThan_iff,
    operators, Symbol.operator?]

theorem symbol?_insert_number (t : Tree α) (value : α) :
    (t.insert (.number value)).symbol? = t.symbol?.or (some (.number value)) := by
  cases t with
  | empty => rfl
  | node left own right =>
    rw [insert_node, if_pos (Symbol.goesBelow_number value own)]
    rfl

theorem GroupedNode.insert {left right : Tree α} {own symbol : Symbol α}
    (h : GroupedNode left own right) (hbelow : symbol.goesBelow own = true) :
    GroupedNode left own (right.insert symbol) := by
  cases own with
  | number value =>
    obtain ⟨hleft, hroot⟩ := h
    refine ⟨hleft, fun root hinserted => ?_⟩
    cases symbol with
    | number added =>
      rw [symbol?_insert_number] at hinserted
      cases right with
      | empty =>
        cases hinserted
        rfl
      | node => exact hroot root hinserted
    | operator op => cases hbelow
  | operator op =>
    refine ⟨h.1, fun inserted hinserted => ?_⟩
    rw [symbols_insert, Sequence.operators_append, List.mem_append] at hinserted
    rcases hinserted with hold | hnew
    · exact h.2 inserted hold
    · exact goesBelow_operator_iff.mp hbelow inserted hnew

theorem Grouped.insert {t : Tree α} (h : t.Grouped) (symbol : Symbol α) :
    (t.insert symbol).Grouped := by
  induction t with
  | empty =>
    cases symbol with
    | number value => exact ⟨⟨rfl, nofun⟩, trivial, trivial⟩
    | operator op => exact ⟨⟨nofun, nofun⟩, trivial, trivial⟩
  | node left own right _ ih =>
    rw [insert_node]
    split
    next hbelow =>
      obtain ⟨hnode, hleft, hright⟩ := h
      exact ⟨hnode.insert hbelow, hleft, ih hright⟩
    next hbelow =>
      -- Only an operator is stopped, and what it takes over binds at least as tightly.
      cases symbol with
      | number value => exact absurd (Symbol.goesBelow_number value own) hbelow
      | operator op =>
        refine ⟨⟨fun below hmem => ?_, nofun⟩, h, trivial⟩
        cases own with
        | number value =>
          rw [Sequence.operators_eq_nil_iff.mpr h.isOperator_eq_false] at hmem
          cases hmem
        | operator own =>
          have hle : op.precedence ≤ own.precedence := by
            rw [Symbol.goesBelow, Symbol.isLooserThan, Operator.bindsTighterThan_iff] at hbelow
            omega
          exact Nat.le_trans hle (h.precedence_le below hmem)

theorem grouped_ofSymbols (sequence : List (Symbol α)) : (ofSymbols sequence).Grouped :=
  List.foldlRecOn sequence insert (motive := Grouped) trivial fun _ ht symbol _ => ht.insert symbol

/-! ### Rebuilding a grouped tree -/

/-- Symbols that all pass the root build the right tree. -/
theorem foldl_insert_node {left right : Tree α} {own : Symbol α} {added : List (Symbol α)}
    (h : ∀ symbol ∈ added, symbol.goesBelow own = true) :
    added.foldl insert (node left own right) = node left own (added.foldl insert right) := by
  induction added generalizing right with
  | nil => rfl
  | cons symbol added ih =>
    rw [List.foldl_cons, List.foldl_cons, insert_node, if_pos (h symbol List.mem_cons_self)]
    exact ih fun other hother => h other (List.mem_cons_of_mem _ hother)

/-- An operator takes over a tree whose operators bind at least as tightly. -/
theorem insert_operator_of_le {t : Tree α} {op : Operator}
    (h : ∀ own ∈ operators t.symbols, op.precedence ≤ own.precedence) :
    t.insert (.operator op) = node t (.operator op) empty := by
  cases t with
  | empty => rfl
  | node left own right =>
    rw [insert_node, if_neg]
    cases own with
    | number value => exact Bool.false_ne_true
    | operator own =>
      have hle : op.precedence ≤ own.precedence := by
        apply h
        simp only [symbols, Sequence.operators_append, Sequence.operators_cons_operator,
          List.mem_append, List.mem_cons, true_or, or_true]
      rw [Symbol.goesBelow, Symbol.isLooserThan, Operator.bindsTighterThan_iff]
      omega

theorem ofSymbols_append_operator {left right : List (Symbol α)} {op : Operator}
    (hleft : ∀ own ∈ operators left, op.precedence ≤ own.precedence)
    (hright : ∀ own ∈ operators right, op.precedence < own.precedence) :
    ofSymbols (left ++ .operator op :: right) =
      node (ofSymbols left) (.operator op) (ofSymbols right) := by
  have htakes : (ofSymbols left).insert (.operator op) =
      node (ofSymbols left) (.operator op) empty := by
    apply insert_operator_of_le
    rwa [symbols_ofSymbols]
  have hpass : ∀ symbol ∈ right, symbol.goesBelow (.operator op) = true := by
    intro symbol hsymbol
    refine goesBelow_operator_iff.mpr fun own hown => hright own ?_
    rw [Sequence.mem_operators, List.mem_singleton] at hown
    rw [Sequence.mem_operators, hown]
    exact hsymbol
  rw [ofSymbols, List.foldl_append, List.foldl_cons]
  change right.foldl insert ((ofSymbols left).insert (.operator op)) = _
  rw [htakes, foldl_insert_node hpass]
  rfl

theorem ofSymbols_cons_number {value : α} {right : List (Symbol α)}
    (h : ∀ symbol ∈ right, symbol.isOperator = false) :
    ofSymbols (.number value :: right) = node empty (.number value) (ofSymbols right) := by
  have hpass : ∀ symbol ∈ right, symbol.goesBelow (.number value) = true := by
    intro symbol hsymbol
    obtain ⟨value', rfl⟩ := Symbol.isOperator_eq_false_iff.mp (h symbol hsymbol)
    exact Symbol.goesBelow_number value' _
  rw [ofSymbols, List.foldl_cons, insert_empty, leaf, foldl_insert_node hpass]
  rfl

theorem Grouped.ofSymbols_symbols {t : Tree α} (h : t.Grouped) : ofSymbols t.symbols = t := by
  induction t with
  | empty => rfl
  | node left symbol right ihleft ihright =>
    cases symbol with
    | number value =>
      have hnumbers := h.isOperator_eq_false
      obtain ⟨⟨rfl, -⟩, -, hright⟩ := h
      rw [symbols, symbols, List.nil_append, ofSymbols_cons_number, ihright hright]
      exact fun symbol hsymbol => hnumbers symbol (List.mem_cons_of_mem _ hsymbol)
    | operator op =>
      obtain ⟨hnode, hleft, hright⟩ := h
      rw [symbols, ofSymbols_append_operator hnode.1 hnode.2, ihleft hleft, ihright hright]

theorem eq_ofSymbols_iff {t : Tree α} {sequence : List (Symbol α)} :
    t = ofSymbols sequence ↔ t.symbols = sequence ∧ t.Grouped := by
  constructor
  · intro ht
    subst ht
    exact ⟨symbols_ofSymbols sequence, grouped_ofSymbols sequence⟩
  · intro h
    obtain ⟨rfl, hgrouped⟩ := h
    exact hgrouped.ofSymbols_symbols.symm

/-! ### Alternating sequences -/

theorem Grouped.complete {t : Tree α} (h : t.Grouped) (halternating : Alternating t.symbols)
    (hend : EndsWithNumber t.symbols) : t.Complete := by
  induction t with
  | empty => trivial
  | node left symbol right ihleft ihright =>
    obtain ⟨hnode, hleft, hright⟩ := h
    cases symbol with
    | number value =>
      obtain ⟨rfl, hroot⟩ := hnode
      cases right with
      | empty => exact ⟨⟨rfl, rfl⟩, trivial, trivial⟩
      | node left' symbol' right' =>
        -- Two numbers would meet.
        obtain ⟨value', rfl⟩ := Symbol.isOperator_eq_false_iff.mp (hroot symbol' rfl)
        obtain ⟨⟨rfl, -⟩, -⟩ := hright
        have hturn := (List.isChain_cons.mp halternating.turns).1 (.number value') rfl
        exact absurd rfl hturn
    | operator op =>
      obtain ⟨hleftturns, hleftend, hrightturns⟩ := halternating.split
      have hrightend := Sequence.endsWithNumber_append_operator.mp hend
      refine ⟨⟨?_, ?_⟩, ihleft hleft hleftturns hleftend, ihright hright hrightturns hrightend⟩
      · intro hempty
        subst hempty
        exact hleftend.ne_nil rfl
      · intro hempty
        subst hempty
        exact hrightend.ne_nil rfl

/-- The tree of a sequence is the one grouped tree that lists it. It is complete if numbers and
operators take turns. -/
theorem ofSymbols_unique_grouped (sequence : List (Symbol α)) :
    (∀ t : Tree α, t = ofSymbols sequence ↔ t.listing = sequence ∧ t.Grouped) ∧
      (∀ t : Tree α, ofSymbols t.listing = t ↔ t.Grouped) ∧
      (Alternating sequence → EndsWithNumber sequence → (ofSymbols sequence).Complete) := by
  refine ⟨fun t => ?_, fun t => ?_, fun halternating hend => ?_⟩
  · rw [listing_eq_symbols]
    exact eq_ofSymbols_iff
  · rw [listing_eq_symbols, eq_comm, eq_ofSymbols_iff]
    exact and_iff_right rfl
  · apply (grouped_ofSymbols sequence).complete
    · rwa [symbols_ofSymbols]
    · rwa [symbols_ofSymbols]

/-- One less two cubed, where the power stands below the difference. -/
theorem ofSymbols_complete_power :
    Alternating [.number 1, .operator .subtract, .number 2, .operator .power, .number 3] ∧
      EndsWithNumber [.number 1, .operator .subtract, .number 2, .operator .power, .number 3] ∧
      (ofSymbols
        [.number 1, .operator .subtract, .number 2, .operator .power, .number 3]).Complete ∧
      ofSymbols [.number 1, .operator .subtract, .number 2, .operator .power, .number 3] =
        node (node empty (.number 1) empty) (.operator .subtract)
          (node (node empty (.number 2) empty) (.operator .power)
            (node empty (.number 3) empty)) := by
  have halternating :
      Alternating [.number 1, .operator .subtract, .number 2, .operator .power, .number 3] :=
    ⟨by simp [Symbol.isOperator], by simp [Symbol.isOperator]⟩
  have hend :
      EndsWithNumber [.number 1, .operator .subtract, .number 2, .operator .power, .number 3] :=
    ⟨3, rfl⟩
  obtain ⟨hunique, -, hcomplete⟩ := ofSymbols_unique_grouped
    [.number 1, .operator .subtract, .number 2, .operator .power, .number 3]
  refine ⟨halternating, hend, hcomplete halternating hend, ((hunique _).mpr ⟨?_, ?_⟩).symm⟩
  · rw [listing_eq_symbols]
    rfl
  · simp [Grouped, AllNodes, GroupedNode, symbol?, operators, symbols, Symbol.operator?,
      Operator.precedence]

end InfixArith.Tree
