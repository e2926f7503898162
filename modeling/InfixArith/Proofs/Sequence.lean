import InfixArith.Symbol
import Mathlib.Data.List.Chain
import Mathlib.Data.List.Destutter
/-!
# Sequences of symbols

What a sequence of symbols looks like, whatever its numbers are. It is saturated when each of its
operators stands between numbers, and alternating when no two numbers and no two operators meet and
the first symbol is a number. Both can be read off the two sides of any operator in the sequence,
which is how they meet the trees: an operator of a tree stands between the symbols of its left tree
and those of its right tree.
-/

namespace InfixArith

variable {α : Type}

theorem Symbol.isOperator_eq_false_iff {symbol : Symbol α} :
    symbol.isOperator = false ↔ ∃ value, symbol = .number value := by
  cases symbol <;> simp [Symbol.isOperator]

namespace Sequence

def operators (symbols : List (Symbol α)) : List Operator := symbols.filterMap Symbol.operator?

def numbers (symbols : List (Symbol α)) : List α := symbols.filterMap Symbol.number?

def StartsWithNumber (symbols : List (Symbol α)) : Prop :=
  ∃ value, symbols.head? = some (.number value)

def EndsWithNumber (symbols : List (Symbol α)) : Prop :=
  ∃ value, symbols.getLast? = some (.number value)

def EndsWithOperator (symbols : List (Symbol α)) : Prop :=
  ∃ op, symbols.getLast? = some (.operator op)

theorem startsWithNumber_iff {symbols : List (Symbol α)} :
    StartsWithNumber symbols ↔
      symbols ≠ [] ∧ ∀ symbol ∈ symbols.head?, symbol.isOperator = false := by
  cases symbols <;> simp [StartsWithNumber, Symbol.isOperator_eq_false_iff]

theorem endsWithNumber_iff {symbols : List (Symbol α)} :
    EndsWithNumber symbols ↔
      symbols ≠ [] ∧ ∀ symbol ∈ symbols.getLast?, symbol.isOperator = false := by
  cases symbols <;> simp [EndsWithNumber, List.getLast?_cons, Symbol.isOperator_eq_false_iff]

theorem StartsWithNumber.ne_nil {symbols : List (Symbol α)} (h : StartsWithNumber symbols) :
    symbols ≠ [] :=
  (startsWithNumber_iff.mp h).1

theorem EndsWithNumber.ne_nil {symbols : List (Symbol α)} (h : EndsWithNumber symbols) :
    symbols ≠ [] :=
  (endsWithNumber_iff.mp h).1

theorem endsWithNumber_or_endsWithOperator {symbols : List (Symbol α)} (h : symbols ≠ []) :
    EndsWithNumber symbols ∨ EndsWithOperator symbols := by
  have hlast := List.getLast?_eq_some_getLast h
  cases hsymbol : symbols.getLast h with
  | number value => exact .inl ⟨value, hlast.trans (congrArg some hsymbol)⟩
  | operator op => exact .inr ⟨op, hlast.trans (congrArg some hsymbol)⟩

theorem EndsWithOperator.not_endsWithNumber {symbols : List (Symbol α)}
    (h : EndsWithOperator symbols) :
    ¬ EndsWithNumber symbols := by
  intro hnumber
  obtain ⟨op, hop⟩ := h
  obtain ⟨value, hvalue⟩ := hnumber
  rw [hop] at hvalue
  cases hvalue

/-- Every operator has numbers on either side. -/
structure Saturated (symbols : List (Symbol α)) : Prop where
  startsWithNumber : StartsWithNumber symbols
  endsWithNumber : EndsWithNumber symbols
  operatorsApart : symbols.IsChain fun left right =>
    ¬ (left.isOperator = true ∧ right.isOperator = true)

/-- Numbers and operators in turns, a number first. Either kind may come last. -/
structure Alternating (symbols : List (Symbol α)) : Prop where
  first : ∀ symbol ∈ symbols.head?, symbol.isOperator = false
  turns : symbols.IsChain fun left right => left.isOperator ≠ right.isOperator

def OperatorAmong (left right : Symbol α) : Prop := left.isOperator = true ∨ right.isOperator = true

instance : DecidableRel (OperatorAmong (α := α)) := fun _ _ => inferInstanceAs (Decidable (_ ∨ _))

/-- Keeps the first number of each run of numbers. -/
def collapse (symbols : List (Symbol α)) : List (Symbol α) := symbols.destutter OperatorAmong

@[simp] theorem operators_append (left right : List (Symbol α)) :
    operators (left ++ right) = operators left ++ operators right := List.filterMap_append

@[simp] theorem operators_cons_operator (op : Operator) (symbols : List (Symbol α)) :
    operators (.operator op :: symbols) = op :: operators symbols := rfl

@[simp] theorem numbers_append (left right : List (Symbol α)) :
    numbers (left ++ right) = numbers left ++ numbers right := List.filterMap_append

@[simp] theorem numbers_cons_operator (op : Operator) (symbols : List (Symbol α)) :
    numbers (.operator op :: symbols) = numbers symbols := rfl

theorem mem_operators {op : Operator} {symbols : List (Symbol α)} :
    op ∈ operators symbols ↔ .operator op ∈ symbols := by
  rw [operators, List.mem_filterMap]
  constructor
  · intro h
    obtain ⟨symbol, hmem, hop⟩ := h
    cases symbol with
    | number value => cases hop
    | operator own =>
      cases hop
      exact hmem
  · intro hmem
    exact ⟨_, hmem, rfl⟩

theorem operators_eq_nil_iff {symbols : List (Symbol α)} :
    operators symbols = [] ↔ ∀ symbol ∈ symbols, symbol.isOperator = false := by
  rw [operators, List.filterMap_eq_nil_iff]
  refine forall₂_congr fun symbol _ => ?_
  cases symbol <;> simp [Symbol.operator?, Symbol.isOperator]

/-! ### Either side of an operator -/

variable {left right : List (Symbol α)} {op : Operator}

theorem startsWithNumber_append_operator :
    StartsWithNumber (left ++ .operator op :: right) ↔ StartsWithNumber left := by
  cases left <;> simp [StartsWithNumber]

theorem endsWithNumber_append_operator :
    EndsWithNumber (left ++ .operator op :: right) ↔ EndsWithNumber right := by
  rw [EndsWithNumber, EndsWithNumber, List.getLast?_append, List.getLast?_cons]
  cases right.getLast? <;> simp

theorem isChain_append_operator {meets : Symbol α → Symbol α → Prop} :
    (left ++ .operator op :: right).IsChain meets ↔
      left.IsChain meets ∧ right.IsChain meets ∧
      (∀ symbol ∈ left.getLast?, meets symbol (.operator op)) ∧
        ∀ symbol ∈ right.head?, meets (.operator op) symbol := by
  rw [List.isChain_append, List.isChain_cons]
  constructor
  · intro h
    obtain ⟨hleft, ⟨hhead, hright⟩, hlast⟩ := h
    exact ⟨hleft, hright, fun symbol hsymbol => hlast symbol hsymbol _ rfl, hhead⟩
  · intro h
    obtain ⟨hleft, hright, hlast, hhead⟩ := h
    refine ⟨hleft, ⟨hhead, hright⟩, fun symbol hsymbol next hnext => ?_⟩
    cases hnext
    exact hlast symbol hsymbol

theorem saturated_append_operator :
    Saturated (left ++ .operator op :: right) ↔ Saturated left ∧ Saturated right := by
  constructor
  · intro h
    obtain ⟨hstart, hend, hapart⟩ := h
    rw [startsWithNumber_append_operator] at hstart
    rw [endsWithNumber_append_operator] at hend
    obtain ⟨hleft, hright, hlast, hhead⟩ := isChain_append_operator.mp hapart
    refine ⟨⟨hstart, endsWithNumber_iff.mpr ⟨hstart.ne_nil, fun symbol hsymbol => ?_⟩, hleft⟩,
      ⟨startsWithNumber_iff.mpr ⟨hend.ne_nil, fun symbol hsymbol => ?_⟩, hend, hright⟩⟩
    · have hmeets := hlast symbol hsymbol
      simpa [Symbol.isOperator] using hmeets
    · have hmeets := hhead symbol hsymbol
      simpa [Symbol.isOperator] using hmeets
  · intro h
    obtain ⟨hleft, hright⟩ := h
    refine ⟨startsWithNumber_append_operator.mpr hleft.startsWithNumber,
      endsWithNumber_append_operator.mpr hright.endsWithNumber,
      isChain_append_operator.mpr ⟨hleft.operatorsApart, hright.operatorsApart, ?_, ?_⟩⟩
    · intro symbol hsymbol hboth
      have hnumber := (endsWithNumber_iff.mp hleft.endsWithNumber).2 symbol hsymbol
      exact Bool.false_ne_true (hnumber.symm.trans hboth.1)
    · intro symbol hsymbol hboth
      have hnumber := (startsWithNumber_iff.mp hright.startsWithNumber).2 symbol hsymbol
      exact Bool.false_ne_true (hnumber.symm.trans hboth.2)

theorem saturated_of_numbers {symbols : List (Symbol α)} (hne : symbols ≠ [])
    (h : ∀ symbol ∈ symbols, symbol.isOperator = false) : Saturated symbols := by
  refine ⟨
    startsWithNumber_iff.mpr ⟨hne, fun symbol hsymbol => h symbol (List.mem_of_mem_head? hsymbol)⟩,
    endsWithNumber_iff.mpr ⟨hne, fun symbol hsymbol => h symbol (List.mem_of_getLast? hsymbol)⟩,
    (List.pairwise_of_forall_mem_list ?_).isChain⟩
  intro left hleft right _ hboth
  exact Bool.false_ne_true ((h left hleft).symm.trans hboth.1)

theorem Alternating.split (h : Alternating (left ++ .operator op :: right)) :
    Alternating left ∧ EndsWithNumber left ∧ Alternating right := by
  obtain ⟨hfirst, hturns⟩ := h
  obtain ⟨hleft, hright, hlast, hhead⟩ := isChain_append_operator.mp hturns
  have hne : left ≠ [] := by
    intro hempty
    subst hempty
    exact Bool.false_ne_true (hfirst _ rfl).symm
  have hhead' : ∀ symbol ∈ left.head?, symbol.isOperator = false := by
    intro symbol hsymbol
    exact hfirst symbol (List.mem_head?_append_of_mem_head? hsymbol)
  refine ⟨⟨hhead', hleft⟩, endsWithNumber_iff.mpr ⟨hne, fun symbol hsymbol => ?_⟩,
    ⟨fun symbol hsymbol => ?_, hright⟩⟩
  · have hmeets := hlast symbol hsymbol
    simpa [Symbol.isOperator] using hmeets
  · have hmeets := hhead symbol hsymbol
    simpa [Symbol.isOperator] using hmeets.symm

theorem Alternating.saturated {symbols : List (Symbol α)} (h : Alternating symbols)
    (hend : EndsWithNumber symbols) : Saturated symbols := by
  refine ⟨startsWithNumber_iff.mpr ⟨hend.ne_nil, h.first⟩, hend,
    h.turns.imp fun own next hturn hboth => ?_⟩
  exact hturn (hboth.1.trans hboth.2.symm)

/-! ### Runs of numbers -/

theorem collapse_cons_operator (op : Operator) (symbols : List (Symbol α)) :
    collapse (.operator op :: symbols) = .operator op :: collapse symbols := by
  cases symbols with
  | nil => rfl
  | cons symbol symbols =>
    have hamong : OperatorAmong (.operator op) symbol := Or.inl rfl
    rw [collapse, List.destutter_cons_cons, if_pos hamong]
    rfl

theorem collapse_append_operator :
    collapse (left ++ .operator op :: right) = collapse left ++ .operator op :: collapse right := by
  cases left with
  | nil => exact collapse_cons_operator op right
  | cons symbol left =>
    simp only [collapse, List.cons_append, List.destutter_cons']
    induction left generalizing symbol with
    | nil =>
      have hamong : OperatorAmong symbol (.operator op) := Or.inr rfl
      rw [List.nil_append, List.destutter'_cons_pos _ hamong]
      exact congrArg _ (collapse_cons_operator op right)
    | cons next left ih =>
      rw [List.cons_append, List.destutter'_cons, List.destutter'_cons]
      split
      · rw [ih next]
        rfl
      · exact ih symbol

theorem collapse_numbers (value : α) {symbols : List (Symbol α)}
    (h : ∀ symbol ∈ symbols, symbol.isOperator = false) :
    collapse (.number value :: symbols) = [.number value] := by
  rw [collapse, List.destutter_cons']
  induction symbols with
  | nil => rfl
  | cons symbol symbols ih =>
    have hsymbol : symbol.isOperator = false := h symbol List.mem_cons_self
    rw [List.destutter'_cons_neg]
    · exact ih fun other hother => h other (List.mem_cons_of_mem _ hother)
    · intro hamong
      obtain hvalue | hoperator := hamong
      · cases hvalue
      · exact Bool.false_ne_true (hsymbol.symm.trans hoperator)

theorem operators_collapse (symbols : List (Symbol α)) :
    operators (collapse symbols) = operators symbols := by
  cases symbols with
  | nil => rfl
  | cons symbol symbols =>
    rw [collapse, List.destutter_cons']
    induction symbols generalizing symbol with
    | nil => rfl
    | cons next symbols ih =>
      rw [List.destutter'_cons]
      split
      · rw [← List.singleton_append, operators_append, ih, ← operators_append,
          List.singleton_append]
      next hamong =>
        obtain ⟨hsymbol, hnext⟩ := not_or.mp hamong
        cases symbol with
        | operator op => exact absurd rfl hsymbol
        | number value =>
          cases next with
          | operator op => exact absurd rfl hnext
          | number value' => exact ih (.number value)

/-- With runs of numbers collapsed, a number and then operators with numbers. -/
def Spells (symbols : List (Symbol α)) (first : α) (entries : List (Operator × α)) : Prop :=
  numbers (collapse symbols) = first :: entries.map Prod.snd ∧
    operators (collapse symbols) = entries.map Prod.fst

theorem Spells.join {left right : List (Symbol α)} {first second : α}
    {entries entries' : List (Operator × α)}
    (hleft : Spells left first entries) (hright : Spells right second entries') (op : Operator) :
    Spells (left ++ .operator op :: right) first (entries ++ (op, second) :: entries') := by
  rw [Spells, collapse_append_operator, numbers_append, operators_append,
    numbers_cons_operator, operators_cons_operator, hleft.1, hleft.2, hright.1, hright.2]
  simp only [List.map_append, List.map_cons, List.cons_append, and_self]

theorem Spells.operators_eq {symbols : List (Symbol α)} {first : α} {entries : List (Operator × α)}
    (h : Spells symbols first entries) : operators symbols = entries.map Prod.fst := by
  rw [← operators_collapse, h.2]

end Sequence

end InfixArith
