import Mathlib.Logic.Relation
import Mathlib.Tactic.Common

/-!
Contract: the combinatorics of a depth-first numbering, apart from any
traversal that produces one.

Vertices are named by their preorder numbers, so every comparison is one of
numbers.  `DepthFirst` says what a traversal has to establish: parents come
first and are joined by an edge, the parent of the next vertex is on the path
down to the last one, and an edge to a later vertex leads to a descendant.

Owns:
- `Ancestor` and the contiguity of subtrees;
- `Skims`, walks whose inner vertices stay above a floor, and the lemma that
  such a walk enters the path above its end by a walk that stays above its own
  end.
-/

namespace FlowRegions

/-- `a` is reached from `b` by going from parent to parent; every number is its
own ancestor. -/
inductive Ancestor (parent : Nat → Nat) : Nat → Nat → Prop where
  | self (a : Nat) : Ancestor parent a a
  | above {a b : Nat} (positive : 0 < b) (rest : Ancestor parent a (parent b)) :
      Ancestor parent a b

/-- A depth-first numbering of `count` vertices: 0 is the start, the others
have parents. -/
structure DepthFirst (count : Nat) (parent : Nat → Nat) (edge : Nat → Nat → Prop) : Prop where
  edge_lt : ∀ {a b}, edge a b → a < count ∧ b < count
  parent_lt : ∀ {b}, 0 < b → b < count → parent b < b
  parent_edge : ∀ {b}, 0 < b → b < count → edge (parent b) b
  /-- A traversal goes on from a vertex on the path down to the last one. -/
  parent_spine : ∀ {b}, b + 1 < count → Ancestor parent (parent (b + 1)) b
  /-- A vertex is finished only when its neighbours are met. -/
  forward : ∀ {a b}, a < b → edge a b → Ancestor parent a b

namespace Ancestor

variable {parent : Nat → Nat} {a b c : Nat}

theorem trans (first : Ancestor parent a b) (second : Ancestor parent b c) :
    Ancestor parent a c := by
  induction second with
  | self => exact first
  | above positive _ inductionHypothesis => exact .above positive inductionHypothesis

/-- A proper ancestor is an ancestor of the parent. -/
theorem of_ne (ancestor : Ancestor parent a b) (different : a ≠ b) :
    0 < b ∧ Ancestor parent a (parent b) := by
  cases ancestor with
  | self => exact absurd rfl different
  | above positive rest => exact ⟨positive, rest⟩

/-- Ancestry below a bound depends on the parents below it. -/
theorem congr {other : Nat → Nat} {count : Nat}
    (falls : ∀ {b}, 0 < b → b < count → parent b < b)
    (same : ∀ {b}, b < count → other b = parent b)
    (ancestor : Ancestor parent a b) (within : b < count) : Ancestor other a b := by
  induction ancestor with
  | self => exact .self a
  | @above b positive rest inductionHypothesis =>
      refine .above positive ?_
      rw [same within]
      exact inductionHypothesis (Nat.lt_trans (falls positive within) within)

end Ancestor

namespace DepthFirst

/-- The tree of one vertex. -/
theorem single {parent : Nat → Nat} {edge : Nat → Nat → Prop}
    (loops : ∀ {a b}, edge a b → a = 0 ∧ b = 0) : DepthFirst 1 parent edge where
  edge_lt := by
    intro a b step
    obtain ⟨rfl, rfl⟩ := loops step
    exact ⟨Nat.one_pos, Nat.one_pos⟩
  parent_lt := fun positive below => by omega
  parent_edge := fun positive below => by omega
  parent_spine := fun below => by omega
  forward := by
    intro a b before step
    have := (loops step).2
    omega

variable {count : Nat} {parent : Nat → Nat} {edge : Nat → Nat → Prop}
variable (tree : DepthFirst count parent edge) {a b c : Nat}
include tree

/-! ## Ancestors -/

theorem ancestor_le (ancestor : Ancestor parent a b) (within : b < count) : a ≤ b := by
  induction ancestor with
  | self => exact Nat.le_refl a
  | above positive _ inductionHypothesis =>
      have falls := tree.parent_lt positive within
      have := inductionHypothesis (by omega)
      omega

theorem zero_ancestor (within : b < count) : Ancestor parent 0 b := by
  induction b using Nat.strongRecOn with
  | ind b inductionHypothesis =>
      rcases Nat.eq_zero_or_pos b with rfl | positive
      · exact .self 0
      · have falls := tree.parent_lt positive within
        exact .above positive (inductionHypothesis (parent b) falls (by omega))

/-- Subtrees are contiguous: what lies between a vertex and one of its
descendants descends from it too. -/
theorem ancestor_between (ancestor : Ancestor parent a c) (within : c < count)
    (low : a ≤ b) (high : b ≤ c) : Ancestor parent a b := by
  induction c with
  | zero =>
      obtain rfl : b = 0 := by omega
      exact ancestor
  | succ c inductionHypothesis =>
      by_cases last : b = c + 1
      · exact last ▸ ancestor
      · have above := (ancestor.of_ne (by omega)).2
        exact inductionHypothesis (above.trans (tree.parent_spine within)) (by omega) (by omega)

/-- Two ancestors of one vertex are comparable. -/
theorem ancestor_of_le (first : Ancestor parent a c) (second : Ancestor parent b c)
    (within : c < count) (low : a ≤ b) : Ancestor parent a b :=
  tree.ancestor_between first within low (tree.ancestor_le second within)

/-- An edge that does not go below a vertex does not leave its subtree. -/
theorem ancestor_of_edge (ancestor : Ancestor parent a b) (step : edge b c) (low : a ≤ c) :
    Ancestor parent a c := by
  have within := tree.edge_lt step
  by_cases ahead : b < c
  · exact ancestor.trans (tree.forward ahead step)
  · exact tree.ancestor_between ancestor within.1 low (by omega)

omit tree in
/-- Below a proper ancestor one of its children is on the path down. -/
theorem exists_child (ancestor : Ancestor parent a b) (different : a ≠ b) :
    ∃ c, 0 < c ∧ parent c = a ∧ Ancestor parent c b := by
  induction ancestor with
  | self => exact absurd rfl different
  | @above b positive rest inductionHypothesis =>
      by_cases direct : a = parent b
      · exact ⟨b, positive, direct.symm, .self b⟩
      · obtain ⟨c, cPositive, child, down⟩ := inductionHypothesis direct
        exact ⟨c, cPositive, child, .above positive down⟩

/-- No ancestor lies strictly between a vertex on the path and its parent. -/
theorem le_of_ancestor_of_parent_lt (low : Ancestor parent b c) (ancestor : Ancestor parent a c)
    (within : c < count) (above : parent b < a) : b ≤ a := by
  by_contra early
  have between := tree.ancestor_of_le ancestor low within (by omega)
  have upper := (between.of_ne (by omega)).2
  have bWithin : b < count := by
    have := tree.ancestor_le low within
    omega
  have := tree.ancestor_le upper (by
    have := tree.parent_lt (by omega : 0 < b) bWithin
    omega)
  omega

/-- The path of the tree from an ancestor down, as a walk. -/
theorem walk_down (ancestor : Ancestor parent a b) (within : b < count) :
    Relation.ReflTransGen (fun u v => edge u v ∧ a < v ∧ Ancestor parent v b) a b := by
  induction ancestor with
  | self => exact .refl
  | @above b positive rest inductionHypothesis =>
      have falls := tree.parent_lt positive within
      have start := tree.ancestor_le rest (by omega)
      have upper : Relation.ReflTransGen
          (fun u v => edge u v ∧ a < v ∧ Ancestor parent v b) a (parent b) :=
        Relation.ReflTransGen.mono
          (fun u v step => ⟨step.1, step.2.1, .above positive step.2.2⟩)
          _ _ (inductionHypothesis (by omega))
      exact upper.tail ⟨tree.parent_edge positive within, by omega, .self b⟩

end DepthFirst

/-! ## Walks above a floor -/

/-- A walk of at least one edge whose inner vertices are numbered above
`floor`. -/
inductive Skims (edge : Nat → Nat → Prop) (floor : Nat) : Nat → Nat → Prop where
  | edge {x y : Nat} (step : edge x y) : Skims edge floor x y
  | extend {x y z : Nat} (walk : Skims edge floor x y) (high : floor < y) (step : edge y z) :
      Skims edge floor x z

namespace Skims

variable {edge : Nat → Nat → Prop} {floor lower x y z : Nat}

theorem mono (walk : Skims edge floor x y) (low : lower ≤ floor) : Skims edge lower x y := by
  induction walk with
  | edge step => exact .edge step
  | extend _ high step inductionHypothesis =>
      exact .extend inductionHypothesis (by omega) step

theorem append_walk {stays : Nat → Nat → Prop} (walk : Skims edge floor x y)
    (high : floor < y) (rest : Relation.ReflTransGen stays y z)
    (sound : ∀ {u v}, stays u v → edge u v ∧ floor < v) :
    Skims edge floor x z ∧ floor < z := by
  induction rest with
  | refl => exact ⟨walk, high⟩
  | tail _ step inductionHypothesis =>
      obtain ⟨soFar, above⟩ := inductionHypothesis
      exact ⟨.extend soFar above (sound step).1, (sound step).2⟩

end Skims

namespace DepthFirst

variable {count : Nat} {parent : Nat → Nat} {edge : Nat → Nat → Prop}
variable (tree : DepthFirst count parent edge) {floor x y z : Nat}
include tree

theorem skims_lt (walk : Skims edge floor x z) : x < count ∧ z < count := by
  induction walk with
  | edge step => exact tree.edge_lt step
  | extend _ _ step inductionHypothesis => exact ⟨inductionHypothesis.1, (tree.edge_lt step).2⟩

/-- A walk that starts below its floor leads to descendants of its start. -/
theorem ancestor_of_skims (walk : Skims edge floor x z) (below : x ≤ floor) (low : x ≤ z) :
    Ancestor parent x z := by
  induction walk with
  | edge step => exact tree.ancestor_of_edge (.self x) step low
  | extend _ high step inductionHypothesis =>
      exact tree.ancestor_of_edge (inductionHypothesis (by omega)) step low

/-- A walk above a floor enters the path above its end by a walk whose inner
vertices are above the vertex where it enters. -/
theorem skims_entry (walk : Skims edge floor x z) (high : floor < z) :
    ∃ y, Ancestor parent y z ∧ floor < y ∧ Skims edge y x y := by
  induction walk with
  | @edge z step => exact ⟨z, .self z, high, .edge step⟩
  | @extend before z walk above step inductionHypothesis =>
      obtain ⟨y, ancestor, yHigh, entry⟩ := inductionHypothesis above
      have within := tree.edge_lt step
      by_cases low : y ≤ z
      · exact ⟨y, tree.ancestor_of_edge ancestor step low, yHigh, entry⟩
      · -- The edge goes back below `y`: the walk to `y`, the path of the tree from `y` and
        -- this edge form a walk above `z`.
        have down := tree.walk_down ancestor within.1
        have lowered : Skims edge z x y := entry.mono (by omega)
        obtain ⟨soFar, aboveEnd⟩ := lowered.append_walk (by omega) down
          fun step => ⟨step.1, by omega⟩
        exact ⟨z, .self z, high, .extend soFar aboveEnd step⟩

end DepthFirst

end FlowRegions
