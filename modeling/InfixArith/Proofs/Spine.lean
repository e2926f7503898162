import InfixArith.Proofs.Grouping
import InfixArith.Proofs.Places
import Mathlib.Order.Bounds.Defs
/-!
# Where an insertion takes place

Whatever the tree, a symbol is inserted at one place on the right spine, the first one that stops
it. A number is stopped only where there is nothing, an operator also by a number and by an operator
that binds at least as tightly. What was at the place becomes the left tree of the new node, and
nothing else changes, so the new symbol comes last in the listing.
-/

namespace InfixArith.Tree

variable {α : Type}

/-- So many steps down the right spine. -/
def rightward (steps : Nat) : List Side := List.replicate steps .right

/-- The place of the tree stops a symbol that is inserted. -/
def Stops (symbol : Symbol α) (t : Tree α) : Prop :=
  match symbol with
  | .number _ => t = empty
  | .operator op => t = empty ∨ (∃ value, t.symbol? = some (.number value)) ∨
      ∃ own, t.symbol? = some (.operator own) ∧ op.precedence ≤ own.precedence

theorem left_notMem_rightward (steps : Nat) : Side.left ∉ rightward steps := by
  intro hmem
  cases List.eq_of_mem_replicate hmem

theorem stops_empty (symbol : Symbol α) : Stops symbol empty := by
  cases symbol with
  | number value => rfl
  | operator op => exact .inl rfl

theorem stops_node_iff {symbol own : Symbol α} {left right : Tree α} :
    Stops symbol (node left own right) ↔ ¬ symbol.goesBelow own = true := by
  cases symbol with
  | number value => simp [Stops]
  | operator op =>
    cases own with
    | number value => simp [Stops, symbol?, Symbol.goesBelow, Symbol.isLooserThan]
    | operator own =>
        simp [Stops, symbol?, Symbol.goesBelow, Symbol.isLooserThan, Operator.bindsTighterThan]

/-- An insertion puts a node above what was at the first place that stops it. -/
theorem exists_insert_eq_replaceAt (t : Tree α) (symbol : Symbol α) :
    ∃ steps, IsLeast {steps | Stops symbol (t.subtree (rightward steps))} steps ∧
      t.HasPlace (rightward steps) ∧
      t.insert symbol =
        t.replaceAt (rightward steps) (node (t.subtree (rightward steps)) symbol empty) := by
  induction t with
  | empty => exact ⟨0, ⟨stops_empty symbol, fun _ _ => Nat.zero_le _⟩, trivial, rfl⟩
  | node left own right _ ih =>
    by_cases hbelow : symbol.goesBelow own = true
    · obtain ⟨steps, ⟨hstops, hleast⟩, hplace, hinsert⟩ := ih
      refine ⟨steps + 1, ⟨hstops, fun other hother => ?_⟩, ⟨nofun, hplace⟩, ?_⟩
      · cases other with
        | zero => exact absurd hbelow (stops_node_iff.mp hother)
        | succ other => exact Nat.succ_le_succ (hleast hother)
      · rw [insert_node, if_pos hbelow, hinsert]
        rfl
    · refine ⟨0, ⟨stops_node_iff.mpr hbelow, fun _ _ => Nat.zero_le _⟩, trivial, ?_⟩
      rw [insert_node, if_neg hbelow]
      rfl

theorem child_left_replaceAt_rightward (t : Tree α) {steps : Nat} {path : List Side} (new : Tree α)
    (h : ¬ rightward steps <+: path) :
    ((t.replaceAt (rightward steps) new).subtree path).child .left =
      (t.subtree path).child .left := by
  have hleft := left_notMem_rightward steps
  have hbelow : ¬ rightward steps <+: path ++ [.left] := by
    rw [List.prefix_concat_iff]
    rintro (heq | hbelow)
    · exact hleft (heq ▸ List.mem_append_right _ List.mem_cons_self)
    · exact h hbelow
  have habove : ¬ path ++ [.left] <+: rightward steps := fun habove =>
    hleft (habove.subset (List.mem_append_right _ List.mem_cons_self))
  have hsame := subtree_replaceAt_of_apart t new hbelow habove
  rwa [subtree_append, subtree_append] at hsame

theorem write_insert [Number α] (t : Tree α) (symbol : Symbol α) :
    (t.insert symbol).write = t.write ++ symbol.write := by
  simp only [write, listing_eq_symbols, symbols_insert, List.map_append, List.map_cons,
    List.map_nil, String.join_append, String.join_cons, String.join_nil, String.append_empty]

/-- A symbol is inserted at the first place of the right spine that stops it. Off this place
everything is as before. -/
theorem insert_place [Number α] (t : Tree α) (symbol : Symbol α) :
    (t.insert symbol).listing = t.listing ++ [symbol] ∧
      (t.insert symbol).write = t.write ++ symbol.write ∧
      ∃ steps, IsLeast {steps | Stops symbol (t.subtree (rightward steps))} steps ∧
        (t.insert symbol).subtree (rightward steps) =
          node (t.subtree (rightward steps)) symbol empty ∧
        (∀ value, symbol = .number value → (t.insert symbol).subtree (rightward steps) =
          leaf (.number value)) ∧
        (∀ path, ¬ rightward steps <+: path →
          ((t.insert symbol).subtree path).symbol? = (t.subtree path).symbol? ∧
            ((t.insert symbol).subtree path).child .left = (t.subtree path).child .left) ∧
        ∀ path, ¬ rightward steps <+: path → ¬ path <+: rightward steps →
          (t.insert symbol).subtree path = t.subtree path := by
  obtain ⟨steps, hleast, hplace, hinsert⟩ := exists_insert_eq_replaceAt t symbol
  have hnew : (t.insert symbol).subtree (rightward steps) =
      node (t.subtree (rightward steps)) symbol empty := by
    have hread := subtree_replaceAt hplace (node (t.subtree (rightward steps)) symbol empty) []
    rwa [← hinsert, List.append_nil] at hread
  refine ⟨?_, write_insert t symbol, steps, hleast, hnew, ?_, fun path hpath => ⟨?_, ?_⟩,
    fun path hbelow habove => ?_⟩
  · rw [listing_eq_symbols, listing_eq_symbols, symbols_insert]
  · rintro value rfl
    have hempty : t.subtree (rightward steps) = empty := hleast.1
    rw [hnew, hempty]
    rfl
  · rw [hinsert]
    exact symbol?_subtree_replaceAt t _ hpath
  · rw [hinsert]
    exact child_left_replaceAt_rightward t _ hpath
  · rw [hinsert]
    exact subtree_replaceAt_of_apart t _ hbelow habove

/-- A product takes over a power with a sum below it. -/
example :
    (node (leaf (.number 1)) (.operator .power) (leaf (.operator .add)) : Tree Nat).insert
        (.operator .multiply) =
      node (node (leaf (.number 1)) (.operator .power) (leaf (.operator .add)))
        (.operator .multiply) empty := rfl

end InfixArith.Tree
