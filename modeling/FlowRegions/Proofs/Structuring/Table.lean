import FlowRegions.Tree
import Mathlib.Tactic.Common

/-!
Contract: tables of regions in which every region refers to earlier ones.

The walks down a table are bounded by fuel.  In a nested table the index of a
region bounds the walk, so what a walk finds depends neither on the fuel, once
it exceeds the index, nor on later regions.

Owns: `NodeTable.Nested` and the congruence of the three walks that look for
the first vertex, the branching vertex and the branch condition of a region.
-/

namespace FlowRegions

/-- The regions a node refers to: its parts, or the target of a jump. -/
def Node.references (node : Node) : List Nat :=
  match node.shape with
  | .jump target => [target]
  | shape => shape.children

theorem Node.mem_references_of_mem_children {node : Node} {r : Nat}
    (isChild : r ∈ node.children) : r ∈ node.references := by
  unfold references
  split
  · rename_i isJump
    rw [children, isJump] at isChild
    cases isChild
  · exact isChild

namespace NodeTable

/-- Every region refers to regions before it, and a sequence has parts. -/
structure Nested (table : NodeTable) : Prop where
  below : ∀ {i node}, table i = some node → ∀ r ∈ node.references, r < i
  parts : ∀ {i nodes cond}, table i = some ⟨.seq nodes, cond⟩ → nodes ≠ []

/-- A table stays nested as long as the nodes it gains refer to regions before
them and its new sequences have parts. -/
theorem Nested.grow {table other : NodeTable} (nested : table.Nested)
    (gained : ∀ {i node}, other i = some node → table i = some node ∨
      (∀ r ∈ node.references, r < i) ∧ ∀ nodes, node.shape = .seq nodes → nodes ≠ []) :
    other.Nested where
  below found r refers := by
    rcases gained found with old | ⟨earlier, _⟩
    · exact nested.below old r refers
    · exact earlier r refers
  parts found := by
    rcases gained found with old | ⟨_, nonempty⟩
    · exact nested.parts old
    · exact nonempty _ rfl

/-- Where a walk down the table may end. -/
theorem Nested.kind_of_children_eq_nil {table : NodeTable} (nested : table.Nested) {i : Nat}
    {node : Node} (found : table i = some node) (childless : node.children = []) :
    node.kind = .leaf ∨ node.kind = .jump := by
  obtain ⟨shape, cond⟩ := node
  cases shape with
  | leaf vertex => exact .inl rfl
  | jump target => exact .inr rfl
  | seq nodes => exact absurd childless (nested.parts found)
  | _ => cases childless

/-- One level of a walk down a table, given what it finds at other regions. -/
structure Level (β : Type) where
  at? : Option Node → (Nat → β) → β
  /-- What is found without a node. -/
  absent : ∀ f g, at? none f = at? none g
  /-- What is found at a node depends on the regions it refers to. -/
  confined : ∀ {node f g}, (∀ r ∈ node.references, f r = g r) →
    at? (some node) f = at? (some node) g

/-- Two walks by the same levels agree where their tables do, whatever their
fuel above the index. -/
theorem walk_congr {β : Type} (level : Level β) {walk : NodeTable → Nat → Nat → β}
    (unfolds : ∀ table fuel i, walk table (fuel + 1) i = level.at? (table i) (walk table fuel))
    {table other : NodeTable} (nested : table.Nested) {i : Nat}
    (agree : ∀ j ≤ i, other j = table j) {fuel fuel' : Nat} (enough : i < fuel)
    (enough' : i < fuel') : walk other fuel' i = walk table fuel i := by
  induction i using Nat.strongRecOn generalizing fuel fuel' with
  | ind i inductionHypothesis =>
      obtain ⟨fuel, rfl⟩ : ∃ less, fuel = less + 1 := ⟨fuel - 1, by omega⟩
      obtain ⟨fuel', rfl⟩ : ∃ less, fuel' = less + 1 := ⟨fuel' - 1, by omega⟩
      rw [unfolds, unfolds, agree i (Nat.le_refl i)]
      cases found : table i with
      | none => exact level.absent _ _
      | some node =>
          refine level.confined fun r refers => ?_
          have earlier := nested.below found r refers
          exact inductionHypothesis r earlier (fun j le => agree j (by omega)) (by omega)
            (by omega)

/-- With fuel above every index, a walk goes on at the regions below by itself. -/
theorem walk_unfold {β : Type} (level : Level β) {walk : NodeTable → Nat → Nat → β}
    (unfolds : ∀ table fuel i, walk table (fuel + 1) i = level.at? (table i) (walk table fuel))
    {table : NodeTable} (nested : table.Nested) {size i : Nat} (within : i < size) :
    walk table size i = level.at? (table i) (walk table size) := by
  obtain ⟨fuel, rfl⟩ : ∃ fuel, size = fuel + 1 := ⟨size - 1, by omega⟩
  rw [unfolds]
  cases found : table i with
  | none => exact level.absent _ _
  | some node =>
      refine level.confined fun r refers => ?_
      have earlier := nested.below found r refers
      exact walk_congr level unfolds nested (fun _ _ => rfl) (by omega) (by omega)

/-! ## The three walks -/

private theorem bind_getLast?_congr {β : Type} {nodes : List Nat} {f g : Nat → Option β}
    (same : ∀ r ∈ nodes, f r = g r) : nodes.getLast?.bind f = nodes.getLast?.bind g := by
  cases last : nodes.getLast? with
  | none => rfl
  | some r => exact same r (List.mem_of_getLast? last)

def branchingLevel : Level (Option Nat) where
  at? node? find :=
    match node? with
    | none => none
    | some node =>
      match node.shape with
      | .leaf vertex => some vertex
      | .seq nodes => nodes.getLast?.bind find
      | .tail body => find body
      | _ => none
  absent _ _ := rfl
  confined := by
    rintro ⟨shape, cond⟩ f g same
    cases shape with
    | seq nodes => exact bind_getLast?_congr same
    | tail body => exact same body (by simp [Node.references, Shape.children])
    | _ => rfl

def condLevel : Level (Option Cond) where
  at? node? find :=
    match node? with
    | none => none
    | some node =>
      match node.shape, node.cond with
      | .leaf _, some folded => some folded
      | .seq _, some folded => some folded
      | .leaf vertex, none => some (.test vertex)
      | .seq nodes, none => nodes.getLast?.bind find
      | .tail body, _ => find body
      | _, _ => none
  absent _ _ := rfl
  confined := by
    rintro ⟨shape, cond⟩ f g same
    cases shape with
    | seq nodes =>
        cases cond with
        | none => exact bind_getLast?_congr same
        | some folded => rfl
    | tail body =>
        have below := same body (by simp [Node.references, Shape.children])
        cases cond <;> exact below
    | _ => cases cond <;> rfl

/-- Only leaves, sequences and copies end in a branch. -/
theorem unbranched_of_kind {node : Node}
    (noBranch : node.kind ≠ .leaf ∧ node.kind ≠ .seq ∧ node.kind ≠ .tail)
    (vertexAt : Nat → Option Nat) (condAt : Nat → Option Cond) :
    branchingLevel.at? (some node) vertexAt = none ∧ condLevel.at? (some node) condAt = none := by
  obtain ⟨shape, cond⟩ := node
  cases shape with
  | leaf => exact absurd rfl noBranch.1
  | seq => exact absurd rfl noBranch.2.1
  | tail => exact absurd rfl noBranch.2.2
  | _ => exact ⟨rfl, by cases cond <;> rfl⟩

def firstLevel : Level (Option Nat) where
  at? node? find :=
    match node? with
    | none => none
    | some node =>
      match node.shape with
      | .leaf vertex => some vertex
      | .jump target => find target
      | shape =>
        match shape.children with
        | [] => none
        | first :: _ => find first
  absent _ _ := rfl
  confined := by
    rintro ⟨shape, cond⟩ f g same
    cases shape with
    | leaf vertex => rfl
    | jump target => exact same target (by simp [Node.references])
    | seq nodes =>
        cases nodes with
        | nil => rfl
        | cons first rest => exact same first (by simp [Node.references, Shape.children])
    | ifThen head _ | ifElse head _ _ | switch head _ | selfLoop head | whileLoop head _
    | doWhile head _ | forLoop head _ _ _ | tail head =>
        exact same head (by simp [Node.references, Shape.children])

theorem branchingVertex?_succ (table : NodeTable) (fuel i : Nat) :
    table.branchingVertex? (fuel + 1) i =
      branchingLevel.at? (table i) (table.branchingVertex? fuel) := by
  rw [branchingVertex?]
  rfl

theorem branchCond?_succ (table : NodeTable) (fuel i : Nat) :
    table.branchCond? (fuel + 1) i = condLevel.at? (table i) (table.branchCond? fuel) := by
  rw [branchCond?]
  rfl

theorem firstVertex?_succ (table : NodeTable) (fuel i : Nat) :
    table.firstVertex? (fuel + 1) i = firstLevel.at? (table i) (table.firstVertex? fuel) := by
  rw [firstVertex?]
  rfl

end NodeTable

end FlowRegions
