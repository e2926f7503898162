import InfixArith.Proofs.TwoStacks
import Mathlib.Data.List.DropRight
/-!
# The right spine is the stack of pending operators

What is read later can only go onto the right spine, and what is pending in the reduction with two
stacks can only be applied from the top. The two are the same operators. From the root downwards
they bind tighter and tighter, so there are three of them at most, and below them hang the numbers
that came after the last one. An operator takes over the spine where it would stop applying what is
pending, and the records of an insertion say where that is.
-/

namespace InfixArith

variable {α : Type}

namespace Sequence

/-- The numbers behind the last operator. -/
def lastNumbers (symbols : List (Symbol α)) : List (Symbol α) := symbols.rtakeWhile (!·.isOperator)

@[simp] theorem lastNumbers_concat_number (symbols : List (Symbol α)) (value : α) :
    lastNumbers (symbols ++ [.number value]) = lastNumbers symbols ++ [.number value] :=
  List.rtakeWhile_concat_pos _ _ _ rfl

@[simp] theorem lastNumbers_concat_operator (symbols : List (Symbol α)) (op : Operator) :
    lastNumbers (symbols ++ [.operator op]) = [] :=
  List.rtakeWhile_concat_neg _ _ _ (by simp [Symbol.isOperator])

theorem isOperator_of_mem_lastNumbers (symbols : List (Symbol α)) :
    ∀ symbol ∈ lastNumbers symbols, symbol.isOperator = false := by
  intro symbol hsymbol
  simpa using List.mem_rtakeWhile_imp hsymbol

end Sequence

open Sequence (lastNumbers operators)

/-! ### Pending operators -/

namespace Reduction

/-- What is pending once operators have been stacked, the latest first. -/
def pendingOperators (ops : List Operator) : List Operator :=
  ops.foldl (fun pending op => op :: settledOperators op pending) []

@[simp] theorem pendingOperators_concat (ops : List Operator) (op : Operator) :
    pendingOperators (ops ++ [op]) = op :: settledOperators op (pendingOperators ops) := by
  simp [pendingOperators]

theorem pending_pushAll [Number α] (first : α) (entries : List (Operator × α)) :
    ((start first).pushAll entries).pending = pendingOperators (entries.map Prod.fst) := by
  induction entries using List.reverseRecOn with
  | nil => rfl
  | append_singleton entries entry ih =>
    obtain ⟨op, value⟩ := entry
    rw [pushAll_append_cons, List.map_append, List.map_singleton, pendingOperators_concat, ← ih]
    rfl

theorem settledOperators_eq_dropWhile (op : Operator) (pending : List Operator) :
    settledOperators op pending = pending.dropWhile (!op.bindsTighterThan ·) := by
  induction pending with
  | nil => rfl
  | cons top pending ih =>
    rw [settledOperators]
    split
    next htighter => simp [htighter]
    next htighter => simp [htighter, ih]

/-- The higher on the stack, the tighter. -/
def Ascending (pending : List Operator) : Prop :=
  pending.Pairwise fun top below => below.precedence < top.precedence

theorem Ascending.settledOperators {pending : List Operator} (h : Ascending pending)
    (op : Operator) :
    Ascending (settledOperators op pending) := by
  rw [settledOperators_eq_dropWhile]
  exact List.Pairwise.sublist (List.dropWhile_sublist _) h

theorem Ascending.precedence_lt {pending : List Operator} (h : Ascending pending) (op : Operator) :
    ∀ below ∈ Reduction.settledOperators op pending, below.precedence < op.precedence := by
  have hsettled := h.settledOperators op
  have hhead := List.head?_dropWhile_not (!op.bindsTighterThan ·) pending
  rw [← settledOperators_eq_dropWhile] at hhead
  cases hlist : Reduction.settledOperators op pending with
  | nil => exact nofun
  | cons top below =>
    rw [hlist] at hsettled hhead
    have htop : top.precedence < op.precedence := by
      simpa [Operator.bindsTighterThan_iff] using hhead
    intro own hown
    rcases List.mem_cons.mp hown with rfl | hbelow
    · exact htop
    · exact Nat.lt_trans (List.rel_of_pairwise_cons hsettled hbelow) htop

theorem ascending_pendingOperators (ops : List Operator) : Ascending (pendingOperators ops) := by
  induction ops using List.reverseRecOn with
  | nil => exact .nil
  | append_singleton ops op ih =>
    rw [pendingOperators_concat]
    exact .cons (ih.precedence_lt op) (ih.settledOperators op)

theorem Ascending.length_le {top : Operator} {pending : List Operator}
    (h : Ascending (top :: pending)) :
    (top :: pending).length ≤ top.precedence + 1 := by
  induction pending generalizing top with
  | nil => simp
  | cons below pending ih =>
    obtain ⟨hbelow, hrest⟩ := List.pairwise_cons.mp h
    have hlt : below.precedence < top.precedence := hbelow below List.mem_cons_self
    have hle := ih hrest
    simp only [List.length_cons] at hle ⊢
    omega

theorem length_pendingOperators_le (ops : List Operator) : (pendingOperators ops).length ≤ 3 := by
  have hascending := ascending_pendingOperators ops
  cases hpending : pendingOperators ops with
  | nil => simp
  | cons top pending =>
    rw [hpending] at hascending
    have hle := hascending.length_le
    have hthree := top.precedence_le_two
    omega

end Reduction

open Reduction (pendingOperators settledOperators)

/-- What is shown of a record. -/
def Record.line [Number α] (record : Record α) : Level × String := (record.level, record.message)

namespace Tree

/-! ### The right spine -/

/-- The symbols on the right spine, from the root downwards. -/
def spine : Tree α → List (Symbol α)
  | empty => []
  | node _ symbol right => symbol :: right.spine

theorem spine_insert (t : Tree α) (symbol : Symbol α) :
    (t.insert symbol).spine = t.spine.takeWhile symbol.goesBelow ++ [symbol] := by
  induction t with
  | empty => rfl
  | node left own right _ ih =>
    rw [insert_node]
    by_cases hbelow : symbol.goesBelow own = true
    · simp [hbelow, spine, ih]
    · simp [hbelow, spine]

theorem map_symbol_cutSpine (passes : Symbol α → Bool) (t : Tree α) (above : List (Layer α)) :
    (t.cutSpine passes above).1.map Layer.symbol =
      (t.spine.takeWhile passes).reverse ++ above.map Layer.symbol := by
  induction t generalizing above with
  | empty => rfl
  | node left symbol right _ ih =>
    rw [cutSpine]
    by_cases hpasses : passes symbol = true
    · simp [hpasses, spine, ih]
    · simp [hpasses, spine]

theorem length_cutSpine (passes : Symbol α → Bool) (t : Tree α) :
    (t.cutSpine passes []).1.length = (t.spine.takeWhile passes).length := by
  simpa using congrArg List.length (map_symbol_cutSpine passes t [])

/-- An operator passes the pending operators that stay pending, and nothing else. -/
theorem takeWhile_isLooserThan {pending : List Operator} (h : Reduction.Ascending pending)
    {numbers : List (Symbol α)} (hnumbers : ∀ symbol ∈ numbers, symbol.isOperator = false)
      (op : Operator) :
    (pending.reverse.map Symbol.operator ++ numbers).takeWhile (Symbol.isLooserThan op) =
      (settledOperators op pending).reverse.map Symbol.operator := by
  obtain ⟨applied, happlied, hsplit⟩ : ∃ applied,
    (∀ own ∈ applied, op.bindsTighterThan own = false) ∧
      pending = applied ++ settledOperators op pending := by
    refine ⟨pending.takeWhile (!op.bindsTighterThan ·), fun own hown => ?_, ?_⟩
    · simpa using List.mem_takeWhile_imp hown
    · rw [Reduction.settledOperators_eq_dropWhile, List.takeWhile_append_dropWhile]
  have hpass : ∀ symbol ∈ (settledOperators op pending).reverse.map Symbol.operator,
      Symbol.isLooserThan (α := α) op symbol = true := by
    simpa [Symbol.isLooserThan, Operator.bindsTighterThan_iff] using h.precedence_lt op
  have hstop : ∀ symbol ∈ applied.reverse.map Symbol.operator ++ numbers,
      Symbol.isLooserThan op symbol = false := by
    intro symbol hsymbol
    rcases List.mem_append.mp hsymbol with hmem | hmem
    · obtain ⟨own, hown, rfl⟩ := List.mem_map.mp hmem
      exact happlied own (List.mem_reverse.mp hown)
    · obtain ⟨value, rfl⟩ := Symbol.isOperator_eq_false_iff.mp (hnumbers symbol hmem)
      rfl
  conv_lhs => rw [hsplit, List.reverse_append, List.map_append, List.append_assoc]
  rw [List.takeWhile_append_of_pos hpass]
  cases hrest : applied.reverse.map Symbol.operator ++ numbers with
  | nil => simp
  | cons symbol rest =>
    rw [hrest] at hstop
    simp [hstop symbol List.mem_cons_self]

theorem spine_ofSymbols (sequence : List (Symbol α)) :
    (ofSymbols sequence).spine =
      (pendingOperators (operators sequence)).reverse.map Symbol.operator ++
        lastNumbers sequence := by
  induction sequence using List.reverseRecOn with
  | nil => rfl
  | append_singleton sequence symbol ih =>
    have hinsert : ofSymbols (sequence ++ [symbol]) = (ofSymbols sequence).insert symbol := by
      simp [ofSymbols]
    rw [hinsert, spine_insert]
    cases symbol with
    | number value =>
      have hpass : (ofSymbols sequence).spine.takeWhile (Symbol.number value).goesBelow =
          (ofSymbols sequence).spine :=
        List.takeWhile_eq_self_iff.mpr fun own _ => Symbol.goesBelow_number value own
      have hoperators : operators (sequence ++ [.number value]) = operators sequence := by
        simp [operators, Symbol.operator?]
      rw [hpass, ih, hoperators, Sequence.lastNumbers_concat_number, List.append_assoc]
    | operator op =>
      have hpass :=
        takeWhile_isLooserThan (Reduction.ascending_pendingOperators (operators sequence))
        (Sequence.isOperator_of_mem_lastNumbers sequence) op
      rw [← ih] at hpass
      rw [Symbol.goesBelow, hpass, Sequence.operators_append, Sequence.operators_cons_operator]
      simp [operators]

theorem length_cutSpine_ofSymbols (sequence : List (Symbol α)) (op : Operator) :
    ((ofSymbols sequence).cutSpine (Symbol.operator op).goesBelow []).1.length =
      (settledOperators op (pendingOperators (operators sequence))).length := by
  have hpass := takeWhile_isLooserThan (Reduction.ascending_pendingOperators (operators sequence))
    (Sequence.isOperator_of_mem_lastNumbers sequence) op
  rw [length_cutSpine, spine_ofSymbols, Symbol.goesBelow, hpass, List.length_map,
    List.length_reverse]

/-! ### The records of insertion -/

theorem length_settledOperators {sequence : List (Symbol α)} {op : Operator}
    (h : settledOperators op (pendingOperators (operators sequence)) ≠ []) :
    (settledOperators op (pendingOperators (operators sequence))).length = 1 ∨
      (settledOperators op (pendingOperators (operators sequence))).length = 2 := by
  have hpos := List.length_pos_iff.mpr h
  have hthree := Reduction.length_pendingOperators_le (operators sequence ++ [op])
  rw [Reduction.pendingOperators_concat, List.length_cons] at hthree
  omega

/-- The records of inserting symbols one after another. -/
def trace (t : Tree α) : List (Symbol α) → List (Record α)
  | [] => []
  | symbol :: symbols => t.insertRecords symbol ++ (t.insert symbol).trace symbols

theorem records_insertAll (t : Tree α) (latest : List (Record α)) (symbols : List (Symbol α)) :
    (t.insertAll latest symbols).records = latest.reverse ++ t.trace symbols := by
  induction symbols generalizing t latest with
  | nil => simp [insertAll, trace]
  | cons symbol symbols ih => simp [insertAll, trace, ih]

theorem trace_append (t : Tree α) (before after : List (Symbol α)) :
    t.trace (before ++ after) = t.trace before ++ (before.foldl insert t).trace after := by
  induction before generalizing t with
  | nil => rfl
  | cons symbol before ih => simp [trace, ih]

theorem ofSymbols_ne_empty {sequence : List (Symbol α)} (h : sequence ≠ []) :
    ofSymbols sequence ≠ empty := by
  intro hempty
  apply h
  rw [← symbols_ofSymbols sequence, hempty]
  rfl

theorem insertRecords_ofSymbols_operator {sequence : List (Symbol α)} (h : sequence ≠ [])
    (op : Operator) :
    (ofSymbols sequence).insertRecords (.operator op) = [.inserting (.operator op),
      if settledOperators op (pendingOperators (operators sequence)) = [] then .becameRoot op
      else .spliced op (settledOperators op (pendingOperators (operators sequence))).length] := by
  have hdepth := length_cutSpine_ofSymbols sequence op
  cases htree : ofSymbols sequence with
  | empty => exact absurd htree (ofSymbols_ne_empty h)
  | node left symbol right =>
    rw [htree] at hdepth
    simp only [insertRecords, hdepth]
    cases settledOperators op (pendingOperators (operators sequence)) <;> simp

/-- The right spine carries the pending operators, tighter and tighter, and then the last numbers.
An inserted operator tells how many of them stay pending. -/
theorem spine_eq_pending [Number α] (sequence : List (Symbol α)) :
    (ofSymbols sequence).spine =
        (pendingOperators (operators sequence)).reverse.map Symbol.operator ++
          lastNumbers sequence ∧
      (pendingOperators (operators sequence)).reverse.Pairwise
        (fun upper lower => upper.precedence < lower.precedence) ∧
      (pendingOperators (operators sequence)).length ≤ 3 ∧
      (∀ (first : α) (entries : List (Operator × α)), entries.map Prod.fst = operators sequence →
        ((Reduction.start first).pushAll entries).pending = pendingOperators (operators sequence)) ∧
      (∀ symbol, (empty.insertAll [] (sequence ++ [symbol])).records =
        (empty.insertAll [] sequence).records ++ (ofSymbols sequence).insertRecords symbol) ∧
      (∀ value, ((ofSymbols sequence).insertRecords (.number value)).map Record.line =
        [(.trace, "inserting " ++ Number.write value)]) ∧
      (∀ op, sequence = [] → ((ofSymbols sequence).insertRecords (.operator op)).map Record.line =
        [(.trace, "inserting " ++ op.write)]) ∧
      ∀ op, sequence ≠ [] → ((ofSymbols sequence).insertRecords (.operator op)).map Record.line =
          [(.trace, "inserting " ++ op.write),
            (.trace, if settledOperators op (pendingOperators (operators sequence)) =
              [] then op.write ++ " becomes root"
              else op.write ++ " spliced into right spine at depth " ++
                toString (settledOperators op (pendingOperators (operators sequence))).length)] ∧
        (settledOperators op (pendingOperators (operators sequence)) ≠ [] →
          (settledOperators op (pendingOperators (operators sequence))).length = 1 ∨
            (settledOperators op (pendingOperators (operators sequence))).length = 2) := by
  refine ⟨spine_ofSymbols sequence,
    List.pairwise_reverse.mpr (Reduction.ascending_pendingOperators _),
    Reduction.length_pendingOperators_le _, fun first entries hentries => ?_, fun symbol => ?_,
    fun value => rfl,
    fun op hempty => ?_, fun op hne => ⟨?_, length_settledOperators⟩⟩
  · rw [Reduction.pending_pushAll, hentries]
  · rw [records_insertAll, records_insertAll, trace_append]
    simp [trace, ofSymbols]
  · subst hempty
    rfl
  · rw [insertRecords_ofSymbols_operator hne]
    split <;> rfl

/-- Behind a sum and a product a power leaves both pending, a difference neither. -/
theorem spine_eq_pending_product :
    (ofSymbols [.number (1 : Float), .operator .add, .number 2, .operator .multiply, .number 3,
      .number 5]).spine =
        [.operator .add, .operator .multiply, .number 3, .number 5] ∧
      ((ofSymbols [.number (1 : Float), .operator .add, .number 2, .operator .multiply, .number 3,
        .number 5]).insertRecords
        (.operator .power)).map Record.line =
          [(.trace, "inserting ^"), (.trace, "^ spliced into right spine at depth 2")] ∧
      ((ofSymbols [.number (1 : Float), .operator .add, .number 2, .operator .multiply, .number 3,
        .number 5]).insertRecords
        (.operator .subtract)).map Record.line =
        [(.trace, "inserting -"), (.trace, "- becomes root")] := by
  obtain ⟨hspine, -, -, -, -, -, -, hrecords⟩ :=
    spine_eq_pending [.number (1 : Float), .operator .add, .number 2, .operator .multiply,
      .number 3, .number 5]
  exact ⟨hspine, (hrecords .power (List.cons_ne_nil _ _)).1.trans (by decide),
    (hrecords .subtract (List.cons_ne_nil _ _)).1.trans (by decide)⟩

end Tree

end InfixArith
