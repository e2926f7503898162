import InfixArith.Tree.Listing
import InfixArith.Tree.Path
import Mathlib.Data.List.Nodup
/-!
# What is still to be listed

The listing of a tree is made in steps. A step goes down to the left and lets a node wait, or it
lists the node that has waited least and goes to its right. In any state, whatever waits there, the
symbols to come are those of the position and then, for each node that waits, its own symbol and
those of its right tree. No step changes what is listed and to come together, so a tree is listed as
the recursion over it would list it, with every node in it once. A node is left waiting once and
listed once, and this bounds the steps: the size of the position does not, since it grows when a
node that waited is listed.
-/

namespace InfixArith

variable {α : Type}

namespace Tree

/-- The paths to the nodes, each between those on its left and those on its right. -/
def nodes : Tree α → List (List Side)
  | empty => []
  | node left _ right => left.nodes.map (.left :: ·) ++ [] :: right.nodes.map (.right :: ·)

/-! ### Every node once -/

theorem length_symbols (t : Tree α) : t.symbols.length = t.size := by
  induction t with
  | empty => rfl
  | node left symbol right ihleft ihright =>
    rw [symbols, List.length_append, List.length_cons, ihleft, ihright, size]
    omega

theorem mem_nodes_iff {t : Tree α} {path : List Side} :
    path ∈ t.nodes ↔ t.subtree path ≠ empty := by
  induction t generalizing path with
  | empty => simp [nodes]
  | node left symbol right ihleft ihright =>
    cases path with
    | nil => simp [nodes]
    | cons side path =>
      cases side with
      | left => simpa [nodes, child] using ihleft
      | right => simpa [nodes, child] using ihright

theorem nodup_nodes (t : Tree α) : t.nodes.Nodup := by
  induction t with
  | empty => exact List.nodup_nil
  | node left symbol right ihleft ihright =>
    have hleft : (left.nodes.map (Side.left :: ·)).Nodup := ihleft.map List.cons_injective
    have hright : (right.nodes.map (Side.right :: ·)).Nodup := ihright.map List.cons_injective
    rw [nodes]
    refine hleft.append (List.nodup_cons.mpr ⟨?_, hright⟩) ?_
    · simp
    · rw [List.disjoint_left]
      intro path hmem
      obtain ⟨below, -, rfl⟩ := List.mem_map.mp hmem
      simp

theorem map_some_symbols (t : Tree α) :
    t.symbols.map some = t.nodes.map fun path => (t.subtree path).symbol? := by
  induction t with
  | empty => rfl
  | node left symbol right ihleft ihright =>
    simp only [symbols, nodes, List.map_append, List.map_cons, List.map_map, ihleft, ihright]
    rfl

end Tree

/-! ### The steps of a listing -/

/-- The nodes that wait come with their right trees. What came last is first. -/
structure Enumeration (α : Type) where
  position : Tree α
  waiting : List (Symbol α × Tree α)
  latest : List (Symbol α)

namespace Enumeration

def start (t : Tree α) : Enumeration α := ⟨t, [], []⟩

def finish (state : Enumeration α) : List (Symbol α) :=
  Tree.listFrom state.position state.waiting state.latest

/-- The symbols to come: the position, then from the top what waits. -/
def remaining (state : Enumeration α) : List (Symbol α) :=
  state.position.symbols ++ state.waiting.flatMap fun entry => entry.1 :: entry.2.symbols

/-- Two steps for each node, but one for a node that waits already. -/
def stepsLeft (state : Enumeration α) : Nat :=
  2 * state.position.size + state.waiting.foldr (fun entry later => 2 * entry.2.size + 1 + later) 0

inductive Step : Enumeration α → Enumeration α → Prop
  /-- The node at the position is left waiting. -/
  | descend (left : Tree α) (symbol : Symbol α) (right : Tree α)
      (waiting : List (Symbol α × Tree α))
      (latest : List (Symbol α)) :
      Step ⟨.node left symbol right, waiting, latest⟩ ⟨left, (symbol, right) :: waiting, latest⟩
  /-- The node that has waited least is listed. -/
  | visit (symbol : Symbol α) (right : Tree α) (waiting : List (Symbol α × Tree α))
      (latest : List (Symbol α)) :
      Step ⟨.empty, (symbol, right) :: waiting, latest⟩ ⟨right, waiting, symbol :: latest⟩

/-- What a listing comes to in so many steps. -/
inductive After (first : Enumeration α) : Nat → Enumeration α → Prop
  | start : After first 0 first
  | next {steps : Nat} {state after : Enumeration α} (h : After first steps state)
      (hstep : Step state after) :
      After first (steps + 1) after

variable {first state after : Enumeration α} {steps : Nat}

theorem finish_eq_append (state : Enumeration α) :
    state.finish = state.latest.reverse ++ state.remaining :=
  Tree.listFrom_eq state.position state.waiting state.latest

theorem finish_of_step (h : Step state after) : after.finish = state.finish := by
  cases h with
  | descend left symbol right waiting latest =>
    symm
    rw [finish, Tree.listFrom]
    rfl
  | visit symbol right waiting latest =>
    symm
    rw [finish, Tree.listFrom]
    rfl

theorem listed_of_step (h : Step state after) :
    after.latest.reverse ++ after.remaining = state.latest.reverse ++ state.remaining := by
  cases h with
  | descend =>
      simp only [remaining, Tree.symbols, List.flatMap_cons, List.append_assoc, List.cons_append]
  | visit => simp [remaining, Tree.symbols]

theorem stepsLeft_of_step (h : Step state after) : state.stepsLeft = after.stepsLeft + 1 := by
  cases h with
  | descend =>
    simp only [stepsLeft, Tree.size, List.foldr_cons]
    omega
  | visit =>
    simp only [stepsLeft, Tree.size, List.foldr_cons]
    omega

theorem After.listed_eq (h : After first steps state) :
    state.latest.reverse ++ state.remaining = first.latest.reverse ++ first.remaining := by
  induction h with
  | start => rfl
  | next h hstep ih => rw [listed_of_step hstep, ih]

theorem After.finish_eq (h : After first steps state) : state.finish = first.finish := by
  induction h with
  | start => rfl
  | next h hstep ih => rw [finish_of_step hstep, ih]

theorem After.steps_add_stepsLeft (h : After first steps state) :
    steps + state.stepsLeft = first.stepsLeft := by
  induction h with
  | start => exact Nat.zero_add _
  | next h hstep ih =>
    rw [← ih, stepsLeft_of_step hstep]
    omega

theorem After.finished (h : After first steps state) :
    After first (steps + state.stepsLeft) ⟨.empty, [], state.finish.reverse⟩ := by
  obtain ⟨position, waiting, latest⟩ := state
  -- The cases are those of the listing itself, and in the first two it makes a step.
  induction position, waiting, latest using Tree.listFrom.induct generalizing steps with
  | case1 left symbol right waiting latest ih =>
    have hstep := Step.descend left symbol right waiting latest
    have hdone := ih (h.next hstep)
    rwa [finish_of_step hstep, Nat.add_assoc, Nat.add_comm 1, ← stepsLeft_of_step hstep] at hdone
  | case2 symbol right waiting latest ih =>
    have hstep := Step.visit symbol right waiting latest
    have hdone := ih (h.next hstep)
    rwa [finish_of_step hstep, Nat.add_assoc, Nat.add_comm 1, ← stepsLeft_of_step hstep] at hdone
  | case3 latest =>
    have hlisted : finish ⟨.empty, [], latest⟩ = latest.reverse :=
      (finish_eq_append _).trans (List.append_nil _)
    rwa [hlisted, List.reverse_reverse]

theorem stepsLeft_start (t : Tree α) : (start t).stepsLeft = 2 * t.size := Nat.add_zero _

end Enumeration

namespace Tree

open Enumeration (After start)

/-- A tree is listed with every node once. From any state the position is next, then from the top
each node that waits and its right tree. -/
theorem listing_from_every_state (t : Tree α) :
    t.listing = t.symbols ∧ t.listing.length = t.size ∧
      t.nodes.Nodup ∧ (∀ path, path ∈ t.nodes ↔ t.subtree path ≠ empty) ∧
      (t.listing.map some = t.nodes.map fun path => (t.subtree path).symbol?) ∧
      After (start t) (2 * t.size) ⟨empty, [], t.listing.reverse⟩ ∧
      (∀ steps state, After (start t) steps state → state.finish = t.listing ∧
        state.latest.reverse ++ state.remaining = t.listing ∧
        steps + state.stepsLeft = 2 * t.size) ∧
      ∀ state : Enumeration α,
        state.position.listFrom state.waiting state.latest = state.latest.reverse ++
          (state.position.symbols ++ state.waiting.flatMap fun entry =>
            entry.1 :: entry.2.symbols) ∧
        After state state.stepsLeft ⟨empty, [], state.finish.reverse⟩ := by
  have hlisting := listing_eq_symbols t
  refine ⟨hlisting, ?_, nodup_nodes t, fun path => mem_nodes_iff, ?_, ?_,
    fun steps state hafter => ⟨?_, ?_, ?_⟩, fun state => ⟨Enumeration.finish_eq_append state, ?_⟩⟩
  · rw [hlisting, length_symbols]
  · rw [hlisting, map_some_symbols]
  · have hdone := (After.start : After (start t) 0 (start t)).finished
    rwa [Nat.zero_add, Enumeration.stepsLeft_start] at hdone
  · exact hafter.finish_eq
  · rw [hafter.listed_eq, ← Enumeration.finish_eq_append]
    rfl
  · rw [hafter.steps_add_stepsLeft, Enumeration.stepsLeft_start]
  · have hdone := (After.start : After state 0 state).finished
    rwa [Nat.zero_add] at hdone

/-- A number with a minus below it has just been listed. -/
theorem listing_from_every_state_below_number :
    ∃ (t : Tree Nat) (state : Enumeration Nat),
      t = node (node empty (.number 2) (leaf (.operator .subtract))) (.operator .add)
        (leaf (.number 3)) ∧
      After (start t) 3 state ∧ state.waiting = [(.operator .add, leaf (.number 3))] ∧
      state.latest = [.number 2] ∧
      state.remaining = [.operator .subtract, .operator .add, .number 3] ∧
      state.latest.reverse ++ state.remaining = t.listing ∧ 3 + state.stepsLeft = 8 := by
  have hafter : After
      (start (node (node empty (.number 2) (leaf (.operator .subtract))) (.operator .add)
        (leaf (.number 3)))) 3
      ⟨leaf (.operator .subtract), [(.operator .add, leaf (.number 3))], [.number 2]⟩ :=
    ((After.start.next (.descend _ _ _ _ _)).next (.descend _ _ _ _ _)).next (.visit _ _ _ _)
  obtain ⟨-, -, -, -, -, -, hstates, -⟩ := listing_from_every_state
    (node (node empty (.number 2) (leaf (.operator .subtract))) (.operator .add) (leaf (.number 3)))
  obtain ⟨-, hlisted, hsteps⟩ := hstates 3 _ hafter
  exact ⟨_, _, rfl, hafter, rfl, rfl, rfl, hlisted, hsteps⟩

end Tree

end InfixArith
