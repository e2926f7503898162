import InfixArith.Number.Ieee
import InfixArith.Proofs.Parsing
import Mathlib.Data.List.Forall2
/-!
# Trees of the same shape

Nothing that builds or evaluates a tree looks into a number, and all that insertion asks of an
operator is how tightly it binds. So two sequences that agree in this, whatever the types of their
numbers, are carried through insertion side by side: the trees have the same shape at every step,
and related symbols at the same places. Evaluation then succeeds for both or fails alike, and a text
that is read with two number types gives the same error or such a pair of trees.

Equality of trees is a relation of this kind as well. It follows that trees of sequences are equal
as their listings are, in the sense of the arithmetic, which calls both zeros equal and nothing
equal to NaN.
-/

namespace InfixArith

variable {α β : Type}

/-! ### Two results side by side -/

/-- The same error, or two values that are related. -/
inductive Agree {γ δ : Type} (related : γ → δ → Prop) : Except Error γ → Except Error δ → Prop
  | error (error : Error) : Agree related (.error error) (.error error)
  | ok {value : γ} {value' : δ} (h : related value value') : Agree related (.ok value) (.ok value')

/-- Both have a value, or both have the same error. -/
def SameSuccess {γ δ : Type} (result : Except Error γ) (result' : Except Error δ) : Prop :=
  Agree (fun _ _ => True) result result'

namespace Agree

variable {γ δ γ' δ' : Type} {related : γ → δ → Prop} {related' : γ' → δ' → Prop}

theorem map {result : Except Error γ} {result' : Except Error δ} {f : γ → γ'} {g : δ → δ'}
    (h : Agree related result result')
    (hmap : ∀ value value', related value value' → related' (f value) (g value')) :
    Agree related' (result.map f) (result'.map g) := by
  cases h with
  | error error => exact .error error
  | ok hvalue => exact .ok (hmap _ _ hvalue)

theorem bind {result : Except Error γ} {result' : Except Error δ} {f : γ → Except Error γ'}
    {g : δ → Except Error δ'} (h : Agree related result result')
    (hbind : ∀ value value', related value value' → Agree related' (f value) (g value')) :
    Agree related' (result.bind f) (result'.bind g) := by
  cases h with
  | error error => exact .error error
  | ok hvalue => exact hbind _ _ hvalue

end Agree

/-! ### Two symbols side by side -/

def Operator.EquallyTight (op op' : Operator) : Prop := op.precedence = op'.precedence

namespace Symbol

/-- Two numbers, or two operators that are related. -/
inductive Alike (related : Operator → Operator → Prop) : Symbol α → Symbol β → Prop
  | number (value : α) (value' : β) : Alike related (.number value) (.number value')
  | operator {op op' : Operator} (h : related op op') : Alike related (.operator op) (.operator op')

theorem Alike.equallyTight {symbol : Symbol α} {symbol' : Symbol β} (h : symbol.Alike Eq symbol') :
    symbol.Alike Operator.EquallyTight symbol' := by
  cases h with
  | number value value' => exact .number value value'
  | operator hop => exact .operator (congrArg Operator.precedence hop)

theorem alike_of_beq [BEq α] {symbol symbol' : Symbol α} (h : (symbol == symbol') = true) :
    symbol.Alike Eq symbol' := by
  cases symbol with
  | number value =>
    cases symbol' with
    | number value' => exact .number value value'
    | operator op' => exact absurd h Bool.false_ne_true
  | operator op =>
    cases symbol' with
    | number value' => exact absurd h Bool.false_ne_true
    | operator op' => exact .operator (eq_of_beq (α := Operator) h)

theorem goesBelow_eq_of_alike {symbol own : Symbol α} {symbol' own' : Symbol β}
    (hsymbol : symbol.Alike Operator.EquallyTight symbol')
    (hown : own.Alike Operator.EquallyTight own') :
    symbol.goesBelow own = symbol'.goesBelow own' := by
  cases hsymbol with
  | number value value' => rfl
  | @operator op op' hop =>
    cases hown with
    | number value value' => rfl
    | @operator own own' hown =>
      simp only [goesBelow, isLooserThan, Operator.bindsTighterThan]
      rw [hop, hown]

end Symbol

/-! ### Two trees side by side -/

namespace Tree

/-- The same shape, with related symbols at the same places. -/
inductive Matches (related : Symbol α → Symbol β → Prop) : Tree α → Tree β → Prop
  | empty : Matches related .empty .empty
  | node {left right : Tree α} {left' right' : Tree β} {symbol : Symbol α} {symbol' : Symbol β}
      (hleft : left.Matches related left') (hsymbol : related symbol symbol')
      (hright : right.Matches related right') :
      Matches related (.node left symbol right) (.node left' symbol' right')

variable {related : Symbol α → Symbol β → Prop}

theorem Matches.insert
    (hrelated : ∀ symbol symbol', related symbol symbol' →
      symbol.Alike Operator.EquallyTight symbol')
    {t : Tree α} {t' : Tree β} (h : t.Matches related t') {symbol : Symbol α} {symbol' : Symbol β}
    (hsymbol : related symbol symbol') : (t.insert symbol).Matches related (t'.insert symbol') := by
  induction h with
  | empty => exact .node .empty hsymbol .empty
  | node hleft hown hright _ ih =>
    rw [insert_node, insert_node,
      Symbol.goesBelow_eq_of_alike (hrelated _ _ hsymbol) (hrelated _ _ hown)]
    split
    · exact .node hleft hown ih
    · exact .node (.node hleft hown hright) hsymbol .empty

theorem matches_ofSymbols
    (hrelated : ∀ symbol symbol', related symbol symbol' →
      symbol.Alike Operator.EquallyTight symbol')
    {sequence : List (Symbol α)} {sequence' : List (Symbol β)}
    (h : List.Forall₂ related sequence sequence') :
    (ofSymbols sequence).Matches related (ofSymbols sequence') :=
  List.rel_foldl (fun _ _ ht _ _ hsymbol => ht.insert hrelated hsymbol) .empty h

theorem Matches.mono {t : Tree α} {t' : Tree β} {related' : Symbol α → Symbol β → Prop}
    (h : t.Matches related t') (himp : ∀ symbol symbol', related symbol symbol' →
      related' symbol symbol') :
    t.Matches related' t' := by
  induction h with
  | empty => exact .empty
  | node _ hsymbol _ ihleft ihright => exact .node ihleft (himp _ _ hsymbol) ihright

theorem Matches.symbols {t : Tree α} {t' : Tree β} (h : t.Matches related t') :
    List.Forall₂ related t.symbols t'.symbols := by
  induction h with
  | empty => exact .nil
  | node _ hsymbol _ ihleft ihright => exact List.rel_append ihleft (.cons hsymbol ihright)

section Evaluation

variable [Number α] [Number β]

theorem Matches.sameSuccess_operandValue {t : Tree α} {t' : Tree β}
    (h : t.Matches (Symbol.Alike Operator.EquallyTight) t') :
    SameSuccess t.operandValue t'.operandValue := by
  induction h with
  | empty => exact .error _
  | node _ hsymbol _ ihleft ihright =>
    cases hsymbol with
    | number value value' => exact .ok trivial
    | operator => exact ihleft.bind fun _ _ _ => ihright.bind fun _ _ _ => .ok trivial

theorem Matches.sameSuccess_evaluate {t : Tree α} {t' : Tree β}
    (h : t.Matches (Symbol.Alike Operator.EquallyTight) t') :
    SameSuccess t.evaluate t'.evaluate := by
  have hoperand := h.sameSuccess_operandValue
  cases h with
  | empty => exact .ok trivial
  | node =>
      rwa [evaluate_eq_operandValue (t := .node ..) nofun,
        evaluate_eq_operandValue (t := .node ..) nofun]

end Evaluation

/-! ### Equality -/

variable [BEq α]

theorem beq_node {left right left' right' : Tree α} {symbol symbol' : Symbol α} :
    (node left symbol right == node left' symbol' right') =
      (symbol == symbol' && left == left' && right == right') := rfl

theorem beq_iff_matches {t t' : Tree α} :
    (t == t') = true ↔ t.Matches (fun symbol symbol' => (symbol == symbol') = true) t' := by
  constructor
  · intro h
    induction t generalizing t' with
    | empty =>
      cases t' with
      | empty => exact .empty
      | node => exact absurd h Bool.false_ne_true
    | node left symbol right ihleft ihright =>
      cases t' with
      | empty => exact absurd h Bool.false_ne_true
      | node left' symbol' right' =>
        rw [beq_node, Bool.and_eq_true, Bool.and_eq_true] at h
        obtain ⟨⟨hsymbol, hleft⟩, hright⟩ := h
        exact .node (ihleft hleft) hsymbol (ihright hright)
  · intro h
    induction h with
    | empty => rfl
    | node _ hsymbol _ ihleft ihright => rw [beq_node, hsymbol, ihleft, ihright]; rfl

theorem forall₂_beq_iff {sequence sequence' : List (Symbol α)} :
    List.Forall₂ (fun symbol symbol' => (symbol == symbol') = true) sequence sequence' ↔
      (sequence == sequence') = true := by
  induction sequence generalizing sequence' with
  | nil => cases sequence' <;> simp
  | cons symbol sequence ih => cases sequence' <;> simp [ih]

theorem beq_ofSymbols (sequence sequence' : List (Symbol α)) :
    (ofSymbols sequence == ofSymbols sequence') = (sequence == sequence') := by
  rw [Bool.eq_iff_iff, beq_iff_matches, ← forall₂_beq_iff]
  constructor
  · intro h
    have hsymbols := h.symbols
    rwa [symbols_ofSymbols, symbols_ofSymbols] at hsymbols
  · intro h
    exact matches_ofSymbols (fun _ _ hsymbol => (Symbol.alike_of_beq hsymbol).equallyTight) h

theorem beq_self_eq_false {t : Tree α} {value : α} (hmem : .number value ∈ t.symbols)
    (hvalue : (value == value) = false) : (t == t) = false := by
  rw [Bool.eq_false_iff]
  intro h
  have hall := List.forall₂_same.mp (beq_iff_matches.mp h).symbols
  exact Bool.false_ne_true (hvalue.symm.trans (hall _ hmem))

end Tree

section Ieee

open Float.Model (UnpackedFloat)

theorem unpacked_beq_self (value : UnpackedFloat) : value.beq value = !value.isNaN := by
  cases value with
  | infinity sign => cases sign <;> rfl
  | notANumber => rfl
  | zero sign => rfl
  | finite sign mantissa exponent hpos =>
    have hsame : (compare exponent exponent).then (compare mantissa mantissa) = .eq := by simp
    cases sign with
    | negative =>
      change (some ((compare exponent exponent).then (compare mantissa mantissa)).swap ==
        some .eq) = true
      rw [hsame]
      rfl
    | positive =>
      change (some ((compare exponent exponent).then (compare mantissa mantissa)) ==
        some .eq) = true
      rw [hsame]
      rfl

theorem float_beq_self (value : Float) : (value == value) = !value.isNaN :=
  unpacked_beq_self value.toModel.unpack

theorem float32_beq_self (value : Float32) : (value == value) = !value.isNaN :=
  unpacked_beq_self value.toModel.unpack

end Ieee

/-! ### One text read with two number types -/

/-- The same words are read as numbers. -/
def Number.ReadsAlike (α β : Type) [Number α] [Number β] : Prop :=
  ∀ word, (Number.read? word : Option α).isSome = (Number.read? word : Option β).isSome

theorem readsAlike_float_float32 : Number.ReadsAlike Float Float32 := by
  intro word
  simp only [Number.read?, BinaryFormat.readBits?, Option.isSome_map]

variable [Number α] [Number β]

theorem Turn.rel_symbol? (h : Number.ReadsAlike α β) (turn : Turn) (word : List Char) :
    Option.Rel (Symbol.Alike Eq) (turn.symbol? word : Option (Symbol α))
    (turn.symbol? word : Option (Symbol β)) := by
  match turn, word with
  | .number, word =>
    have hread := h (String.ofList word)
    rw [Turn.symbol?, Turn.symbol?]
    cases hvalue : (Number.read? (String.ofList word) : Option α) <;>
      cases hvalue' : (Number.read? (String.ofList word) : Option β) <;>
        rw [hvalue, hvalue'] at hread
    · exact .none
    · cases hread
    · cases hread
    · exact .some (.number _ _)
  | .operator, [glyph] =>
    rw [Turn.symbol?, Turn.symbol?]
    cases Operator.ofGlyph? glyph with
    | none => exact .none
    | some op => exact .some (.operator rfl)
  | .operator, [] => exact .none
  | .operator, _ :: _ :: _ => exact .none

omit [Number α] [Number β] in
theorem Turn.agree_ending (mode : Mode) (turn : Turn) (word : List Char) :
    Agree (List.Forall₂ (Symbol.Alike Eq)) (turn.ending mode word : Except Error (List (Symbol α)))
      (turn.ending mode word : Except Error (List (Symbol β))) := by
  match turn, mode, word with
  | .number, .strict, word => exact .error _
  | .number, .lenient, word => exact .ok .nil
  | .operator, _, [glyph] => exact .error _
  | .operator, _, [] => exact .ok .nil
  | .operator, _, _ :: _ :: _ => exact .ok .nil

theorem agree_readWords (h : Number.ReadsAlike α β) (mode : Mode) (turn : Turn)
    (ws : List (List Char)) :
    Agree (List.Forall₂ (Symbol.Alike Eq)) (readWords mode turn ws : Except Error (List (Symbol α)))
      (readWords mode turn ws : Except Error (List (Symbol β))) := by
  induction ws generalizing turn with
  | nil =>
    cases turn with
    | number => exact .ok .nil
    | operator => exact .ok .nil
  | cons word ws ih =>
    rw [readWords_cons, readWords_cons]
    have hsymbol := turn.rel_symbol? h word
    revert hsymbol
    generalize (turn.symbol? word : Option (Symbol α)) = found
    generalize (turn.symbol? word : Option (Symbol β)) = found'
    intro hsymbol
    cases hsymbol with
    | none => exact turn.agree_ending mode word
    | some hsymbol => exact (ih turn.other).map fun _ _ => .cons hsymbol

theorem agree_parse (h : Number.ReadsAlike α β) (mode : Mode) (text : String) :
    Agree (fun t t' => t.Matches (Symbol.Alike Eq) t' ∧ SameSuccess t.evaluate t'.evaluate)
      ((parse mode text).value : Except Error (Tree α))
      ((parse mode text).value : Except Error (Tree β)) := by
  rw [value_parse, value_parse]
  refine (agree_readWords h mode .number _).map fun sequence sequence' hsequence => ?_
  have htree := Tree.matches_ofSymbols (fun _ _ => Symbol.Alike.equallyTight) hsequence
  exact ⟨htree, (htree.mono fun _ _ => Symbol.Alike.equallyTight).sameSuccess_evaluate⟩

/-- Sequences alike but for their numbers give trees of the same shape that succeed or fail alike.
So do texts read with number types that accept the same words. -/
theorem shape_ignores_numbers :
    (∀ (sequence : List (Symbol α)) (sequence' : List (Symbol β)),
        List.Forall₂ (Symbol.Alike Operator.EquallyTight) sequence sequence' →
          (Tree.ofSymbols sequence).Matches (Symbol.Alike Operator.EquallyTight)
          (Tree.ofSymbols sequence') ∧
            SameSuccess (Tree.ofSymbols sequence).evaluate (Tree.ofSymbols sequence').evaluate) ∧
      (∀ sequence sequence' : List (Symbol α),
        (Tree.ofSymbols sequence == Tree.ofSymbols sequence') =
          ((Tree.ofSymbols sequence).listing == (Tree.ofSymbols sequence').listing)) ∧
      (∀ (t : Tree Float) (value : Float), .number value ∈ t.listing → value.isNaN = true →
        (t == t) = false) ∧
      (∀ (t : Tree Float32) (value : Float32), .number value ∈ t.listing → value.isNaN = true →
        (t == t) = false) ∧
      ((-0 : Float) == 0) = true ∧ ((-0 : Float32) == 0) = true ∧
      (Number.ReadsAlike α β → ∀ (mode : Mode) (text : String),
        Agree (fun t t' => t.Matches (Symbol.Alike Eq) t' ∧ SameSuccess t.evaluate t'.evaluate)
          ((parse mode text).value : Except Error (Tree α))
          ((parse mode text).value : Except Error (Tree β))) := by
  refine ⟨fun sequence sequence' h => ?_, fun sequence sequence' => ?_, fun t value hmem hnan => ?_,
    fun t value hmem hnan => ?_, by decide +kernel, by decide +kernel, agree_parse⟩
  · have htree := Tree.matches_ofSymbols (fun _ _ => id) h
    exact ⟨htree, htree.sameSuccess_evaluate⟩
  · rw [Tree.listing_eq_symbols, Tree.listing_eq_symbols, Tree.symbols_ofSymbols,
      Tree.symbols_ofSymbols]
    exact Tree.beq_ofSymbols sequence sequence'
  · rw [Tree.listing_eq_symbols] at hmem
    exact Tree.beq_self_eq_false hmem (by rw [float_beq_self, hnan]; rfl)
  · rw [Tree.listing_eq_symbols] at hmem
    exact Tree.beq_self_eq_false hmem (by rw [float32_beq_self, hnan]; rfl)

/-- Doubles next to singles, a tree with NaN in it, and a text that lacks an operand. -/
theorem shape_ignores_numbers_widths :
    (List.Forall₂ (Symbol.Alike Operator.EquallyTight) [.number (2 : Float), .operator .subtract,
      .number 1]
        [.number (7 : Float32), .operator .add, .number 3] ∧
      (Tree.ofSymbols [.number (2 : Float), .operator .subtract, .number 1]).Matches
        (Symbol.Alike Operator.EquallyTight)
        (Tree.ofSymbols [.number (7 : Float32), .operator .add, .number 3])) ∧
      (.number (0 / 0 : Float) ∈ (Tree.leaf (.number (0 / 0 : Float))).listing ∧
        (0 / 0 : Float).isNaN = true ∧
        (Tree.leaf (.number (0 / 0 : Float)) == Tree.leaf (.number (0 / 0 : Float))) = false) ∧
      (.number (0 / 0 : Float32) ∈ (Tree.leaf (.number (0 / 0 : Float32))).listing ∧
        (0 / 0 : Float32).isNaN = true ∧
        (Tree.leaf (.number (0 / 0 : Float32)) == Tree.leaf (.number (0 / 0 : Float32))) = false) ∧
      (Number.ReadsAlike Float Float32 ∧
        Agree (fun t t' => t.Matches (Symbol.Alike Eq) t' ∧ SameSuccess t.evaluate t'.evaluate)
          ((parse .strict "1 + 2 *").value : Except Error (Tree Float))
          ((parse .strict "1 + 2 *").value : Except Error (Tree Float32))) := by
  obtain ⟨hshape, -, hnan, hnan', -, -, hparse⟩ := shape_ignores_numbers (α := Float) (β := Float32)
  have hsequences : List.Forall₂ (Symbol.Alike Operator.EquallyTight)
      [.number (2 : Float), .operator .subtract, .number 1]
      [.number (7 : Float32), .operator .add, .number 3] :=
    .cons (.number _ _) (.cons (.operator rfl) (.cons (.number _ _) .nil))
  have hmem : .number (0 / 0 : Float) ∈ (Tree.leaf (.number (0 / 0 : Float))).listing := by
    rw [Tree.listing_eq_symbols]
    exact List.mem_cons_self
  have hmem' : .number (0 / 0 : Float32) ∈ (Tree.leaf (.number (0 / 0 : Float32))).listing := by
    rw [Tree.listing_eq_symbols]
    exact List.mem_cons_self
  have hdivision : (0 / 0 : Float).isNaN = true := by decide +kernel
  have hdivision' : (0 / 0 : Float32).isNaN = true := by decide +kernel
  refine ⟨⟨hsequences, (hshape _ _ hsequences).1⟩, ⟨hmem, hdivision, hnan _ _ hmem hdivision⟩,
    ⟨hmem', hdivision', hnan' _ _ hmem' hdivision'⟩, readsAlike_float_float32, ?_⟩
  exact hparse readsAlike_float_float32 .strict "1 + 2 *"

end InfixArith
