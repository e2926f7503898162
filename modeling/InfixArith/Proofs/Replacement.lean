import InfixArith.Proofs.Places
import InfixArith.Proofs.Walks
import InfixArith.Tree.Listing
/-!
# Replacing a child

The child of a node is the tree at a place, whether it is there or not, and to replace it is to
replace what is at that place. Three observers see how little that changes. A path that does not
lead through the place reads what it read before. The listing keeps what comes before the child and
what comes behind it. An evaluation does not come below numbers, so it sees nothing of a change
there. Putting the child back undoes the replacement.
-/

namespace InfixArith.Tree

variable {α : Type}

/-! ### One place twice -/

@[simp] theorem withChild_child (t : Tree α) (side : Side) :
    t.withChild side (t.child side) = t := by
  cases t <;> cases side <;> rfl

theorem withChild_withChild (t : Tree α) (side : Side) (first second : Tree α) :
    (t.withChild side first).withChild side second = t.withChild side second := by
  cases t <;> cases side <;> rfl

@[simp] theorem replaceAt_subtree (t : Tree α) (place : List Side) :
    t.replaceAt place (t.subtree place) = t := by
  induction place generalizing t with
  | nil => rfl
  | cons side place ih => rw [replaceAt, subtree_cons, ih, withChild_child]

theorem replaceAt_replaceAt (t : Tree α) (place : List Side) (first second : Tree α) :
    (t.replaceAt place first).replaceAt place second = t.replaceAt place second := by
  induction place generalizing t with
  | nil => rfl
  | cons side place ih =>
    by_cases hroot : t = empty
    · simp only [hroot, replaceAt, withChild_empty]
    · rw [replaceAt, replaceAt, replaceAt, child_withChild hroot, withChild_withChild, ih]

/-! ### The child of a node as a place -/

theorem setChild_eq_replaceAt (t : Tree α) (path : List Side) (side : Side) (new : Tree α) :
    t.setChild path side new = t.replaceAt (path ++ [side]) new := by
  induction path generalizing t with
  | nil => rfl
  | cons step path ih => rw [setChild, List.cons_append, replaceAt, ih]

theorem subtree_concat (t : Tree α) (path : List Side) (side : Side) :
    t.subtree (path ++ [side]) = (t.subtree path).child side := by
  rw [subtree_append, subtree_cons, subtree_nil]

theorem hasPlace_concat {t : Tree α} {path : List Side} (h : t.subtree path ≠ empty) (side : Side) :
    t.HasPlace (path ++ [side]) := by
  induction path generalizing t with
  | nil => exact ⟨h, trivial⟩
  | cons step path ih =>
    refine ⟨?_, ih h⟩
    rintro rfl
    exact h (subtree_empty (step :: path))

theorem replaceChild?_eq_some {t : Tree α} {path : List Side} (h : t.subtree path ≠ empty)
    (side : Side) (new : Tree α) :
    t.replaceChild? path side new = some (t.subtree (path ++ [side]),
      t.replaceAt (path ++ [side]) new) := by
  rw [replaceChild?, ← setChild_eq_replaceAt, subtree_concat]
  split
  next hfound => exact absurd hfound h
  · rfl

theorem subtree_replaceAt_concat_ne_empty {t : Tree α} {path : List Side}
    (h : t.subtree path ≠ empty) (side : Side)
    (new : Tree α) : (t.replaceAt (path ++ [side]) new).subtree path ≠ empty := by
  have hnot : ¬ path ++ [side] <+: path := by
    intro hprefix
    have hlength := hprefix.length_le
    rw [List.length_append, List.length_singleton] at hlength
    omega
  have hsymbol := symbol?_subtree_replaceAt t new hnot
  intro hempty
  rw [hempty] at hsymbol
  cases hroot : t.subtree path with
  | empty => exact h hroot
  | node left symbol right =>
    rw [hroot] at hsymbol
    cases hsymbol

/-! ### What the replacement leaves -/

/-- What is listed before a place and behind it does not depend on what is there. -/
theorem exists_symbols_replaceAt {t : Tree α} {place : List Side} (h : t.HasPlace place) :
    ∃ before behind, ∀ new : Tree α, (t.replaceAt place new).symbols =
      before ++ (new.symbols ++ behind) := by
  induction place generalizing t with
  | nil => exact ⟨[], [], fun new => (List.append_nil _).symm⟩
  | cons side place ih =>
    obtain ⟨hroot, hplace⟩ := h
    obtain ⟨before, behind, hsymbols⟩ := ih hplace
    cases t with
    | empty => exact absurd rfl hroot
    | node left symbol right =>
      cases side with
      | left =>
        rw [child] at hsymbols
        refine ⟨before, behind ++ symbol :: right.symbols, fun new => ?_⟩
        change (left.replaceAt place new).symbols ++ symbol :: right.symbols = _
        rw [hsymbols new]
        simp only [List.append_assoc]
      | right =>
        rw [child] at hsymbols
        refine ⟨left.symbols ++ symbol :: before, behind, fun new => ?_⟩
        change left.symbols ++ symbol :: (right.replaceAt place new).symbols = _
        rw [hsymbols new]
        simp only [List.append_assoc, List.cons_append]

theorem child_subtree_replaceAt (t : Tree α) {place path : List Side} (new : Tree α)
    (h : ¬ place <+: path) {side : Side} (hside : ¬ path ++ [side] <+: place) :
    ((t.replaceAt place new).subtree path).child side = (t.subtree path).child side := by
  rw [← subtree_concat, ← subtree_concat]
  apply subtree_replaceAt_of_apart t new _ hside
  rw [List.prefix_concat_iff]
  rintro (rfl | hbelow)
  · exact hside (List.prefix_refl _)
  · exact h hbelow

theorem pruned_withChild_of_number {t : Tree α} {value : α} (h : t.symbol? = some (.number value))
    (side : Side)
    (new : Tree α) : (t.withChild side new).pruned = t.pruned := by
  cases t with
  | empty => cases h
  | node left symbol right =>
    cases h
    cases side <;> rfl

/-- A change below a number is cut off. -/
theorem pruned_setChild {t : Tree α} {path above : List Side} {value : α} (habove : above <+: path)
    (h : (t.subtree above).symbol? = some (.number value)) (side : Side) (new : Tree α) :
    (t.setChild path side new).pruned = t.pruned := by
  induction path generalizing t above with
  | nil =>
    rw [List.prefix_nil.mp habove] at h
    exact pruned_withChild_of_number h side new
  | cons step path ih =>
    cases above with
    | nil => exact pruned_withChild_of_number h step _
    | cons other above =>
      obtain ⟨rfl, hrest⟩ := List.cons_prefix_cons.mp habove
      have hchild := ih hrest h
      cases t with
      | empty => rfl
      | node left symbol right =>
        cases symbol with
        | number own => exact pruned_withChild_of_number rfl other _
        | operator op =>
          cases other with
          | left => exact congrArg (node · (.operator op) right.pruned) hchild
          | right => exact congrArg (node left.pruned (.operator op) ·) hchild

/-- Replacing a child changes nothing off its place and can be undone. At a number or below one it
does not change the value. -/
theorem replaceChild_frame [Number α] (t : Tree α) (path : List Side) (h : t.subtree path ≠ empty)
    (side : Side) (new : Tree α) :
    ∃ t' : Tree α, t.replaceChild? path side new = some ((t.subtree path).child side, t') ∧
      (∃ before behind, t.listing = before ++ (((t.subtree path).child side).listing ++ behind) ∧
        t'.listing = before ++ (new.listing ++ behind)) ∧
      (∀ below, t'.subtree (path ++ [side] ++ below) = new.subtree below) ∧
      (∀ other, ¬ path ++ [side] <+: other →
        (t'.subtree other).symbol? = (t.subtree other).symbol? ∧
          ∀ side', ¬ other ++ [side'] <+: path ++ [side] →
            (t'.subtree other).child side' = (t.subtree other).child side') ∧
      (∀ other, ¬ path ++ [side] <+: other → ¬ other <+: path ++ [side] →
        t'.subtree other = t.subtree other) ∧
      t'.replaceChild? path side ((t.subtree path).child side) = some (new, t) ∧
      ∀ above value, above <+: path → (t.subtree above).symbol? = some (.number value) →
        t'.evaluate = t.evaluate := by
  have hplace := hasPlace_concat h side
  rw [← subtree_concat]
  refine ⟨t.replaceAt (path ++ [side]) new, replaceChild?_eq_some h side new, ?_,
    fun below => subtree_replaceAt hplace new below,
    fun other hother => ⟨symbol?_subtree_replaceAt t new hother,
      fun side' => child_subtree_replaceAt t new hother⟩,
    fun other => subtree_replaceAt_of_apart t new, ?_, fun above value habove hnumber => ?_⟩
  · obtain ⟨before, behind, hsymbols⟩ := exists_symbols_replaceAt hplace
    simp only [listing_eq_symbols]
    refine ⟨before, behind, ?_, hsymbols new⟩
    rw [← hsymbols, replaceAt_subtree]
  · have hnew := subtree_replaceAt hplace new []
    rw [List.append_nil, subtree_nil] at hnew
    rw [replaceChild?_eq_some (subtree_replaceAt_concat_ne_empty h side new), hnew,
      replaceAt_replaceAt, replaceAt_subtree]
  · rw [← evaluate_pruned, ← setChild_eq_replaceAt, pruned_setChild habove hnumber, evaluate_pruned]

/-- A division sign below the number of a difference is replaced, and put back. -/
theorem replaceChild_frame_below_number :
    ∃ t t' : Tree Float,
      t = node (leaf (.number 5)) (.operator .subtract)
      (node empty (.number 3) (leaf (.operator .divide))) ∧
      t.subtree [.right] ≠ empty ∧
      t.replaceChild? [.right] .right (leaf (.number 9)) = some (leaf (.operator .divide), t') ∧
      t'.listing = [.number 5, .operator .subtract, .number 3, .number 9] ∧
      t'.replaceChild? [.right] .right (leaf (.operator .divide)) = some (leaf (.number 9), t) ∧
      t'.evaluate = t.evaluate ∧ t.evaluate = .ok 2 := by
  have hnode : (node (leaf (.number (5 : Float))) (.operator .subtract)
      (node empty (.number 3) (leaf (.operator .divide)))).subtree [.right] ≠ empty := nofun
  obtain ⟨t', hreplace, -, -, -, -, hback, hvalue⟩ := replaceChild_frame
    (node (leaf (.number (5 : Float))) (.operator .subtract)
      (node empty (.number 3) (leaf (.operator .divide))))
    [.right] hnode .right (leaf (.number 9))
  refine ⟨_, t', rfl, hnode, hreplace, ?_, hback, hvalue [.right] 3 (List.prefix_refl _) rfl, ?_⟩
  · obtain rfl : node (leaf (.number (5 : Float))) (.operator .subtract)
        (node empty (.number 3) (leaf (.number 9))) = t' :=
      congrArg Prod.snd (Option.some.inj hreplace)
    rw [listing_eq_symbols]
    rfl
  · exact (operationValue_operator _ _ _).trans (by decide +kernel)

end InfixArith.Tree
