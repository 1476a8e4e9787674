import FlowRegions.Proofs.Traversal.DepthFirst
import Mathlib.Data.Nat.Find

/-!
Contract: dominance in terms of semidominators, in a depth-first numbering.

The semidominator of `w` is the least number from which a walk leads to `w`
whose inner vertices are all numbered above `w`.

Owns:
- the recurrence that gives the semidominator of a vertex from those of later
  vertices;
- `DepthFirst.guards_iff`: an ancestor lies on every walk from the start to a
  vertex exactly when no vertex on the path between has a smaller
  semidominator;
- the two ways in which an immediate dominator is found from semidominators.
-/

namespace FlowRegions

structure IsSemidominator (edge : Nat → Nat → Prop) (w semi : Nat) : Prop where
  walk : Skims edge w semi w
  least : ∀ {x}, Skims edge w x w → semi ≤ x

/-- Every walk from 0 to `b` passes through `a`. -/
def Guards (edge : Nat → Nat → Prop) (a b : Nat) : Prop :=
  0 ≠ a → ¬ Relation.ReflTransGen (fun u v => edge u v ∧ v ≠ a) 0 b

/-- `d` is the last proper ancestor of `w` on every walk from 0 to `w`. -/
structure IsImmediateDominator (parent : Nat → Nat) (edge : Nat → Nat → Prop)
    (d w : Nat) : Prop where
  ancestor : Ancestor parent d w
  proper : d < w
  guards : Guards edge d w
  last : ∀ {v}, Ancestor parent v w → d < v → v < w → ¬ Guards edge v w

theorem IsSemidominator.unique {edge : Nat → Nat → Prop} {w s t : Nat}
    (first : IsSemidominator edge w s) (second : IsSemidominator edge w t) : s = t :=
  Nat.le_antisymm (first.least second.walk) (second.least first.walk)

/-- A walk from 0 past `a` that ends behind `a` leaves the numbers below `a` for
good at some vertex. -/
theorem skims_of_past {edge : Nat → Nat → Prop} {a w : Nat} (notStart : 0 ≠ a)
    (past : Relation.ReflTransGen (fun u v => edge u v ∧ v ≠ a) 0 w) :
    w < a ∨ (a < w ∧ ∃ x, x < a ∧ Skims edge a x w) := by
  induction past with
  | refl => exact .inl (by omega)
  | @tail u v _ step inductionHypothesis =>
      rcases Nat.lt_or_ge v a with below | above
      · exact .inl below
      · refine .inr ⟨by have := step.2; omega, ?_⟩
        rcases inductionHypothesis with before | ⟨high, x, xBelow, walk⟩
        · exact ⟨u, before, .edge step.1⟩
        · exact ⟨x, xBelow, .extend walk high step.1⟩

namespace DepthFirst

variable {count : Nat} {parent : Nat → Nat} {edge : Nat → Nat → Prop}
variable (tree : DepthFirst count parent edge) {a d s u v w x : Nat}
include tree

/-! ## Semidominators -/

/-- Every vertex but the start has a semidominator: its parent is a candidate. -/
theorem exists_semidominators :
    ∃ semi : Nat → Nat, ∀ u, 0 < u → u < count → IsSemidominator edge u (semi u) := by
  classical
  have one (u : Nat) : ∃ s, 0 < u → u < count → IsSemidominator edge u s := by
    by_cases proper : 0 < u ∧ u < count
    · have candidates : ∃ x, Skims edge u x u :=
        ⟨parent u, .edge (tree.parent_edge proper.1 proper.2)⟩
      exact ⟨Nat.find candidates, fun _ _ =>
        ⟨Nat.find_spec candidates, fun walk => Nat.find_min' candidates walk⟩⟩
    · exact ⟨0, fun positive within => absurd ⟨positive, within⟩ proper⟩
  exact ⟨fun u => (one u).choose, fun u => (one u).choose_spec⟩

theorem semidominator_lt (semi : IsSemidominator edge w s) (positive : 0 < w)
    (within : w < count) : s < w := by
  have fromParent : Skims edge w (parent w) w := .edge (tree.parent_edge positive within)
  have := semi.least fromParent
  have := tree.parent_lt positive within
  omega

/-- A semidominator is a proper ancestor. -/
theorem semidominator_ancestor (semi : IsSemidominator edge w s) (positive : 0 < w)
    (within : w < count) : Ancestor parent s w := by
  have below := tree.semidominator_lt semi positive within
  exact tree.ancestor_of_skims semi.walk (by omega) (by omega)

/-- Going on from a later vertex `u` down the tree and over an edge to `w`. -/
theorem skims_through (entry : Skims edge u x u) (later : w < u)
    (ancestor : Ancestor parent u v) (step : edge v w) : Skims edge w x w := by
  have within := tree.edge_lt step
  have lowered : Skims edge w x u := entry.mono (by omega)
  obtain ⟨soFar, above⟩ := lowered.append_walk later (tree.walk_down ancestor within.1)
    fun step => ⟨step.1, by omega⟩
  exact .extend soFar above step

/-- A walk to `w` above `w` is an edge, or enters the path above the last vertex
before `w` at a later vertex than `w`. -/
theorem skims_cases (walk : Skims edge w x w) :
    edge x w ∨ ∃ v u, edge v w ∧ w < v ∧ Ancestor parent u v ∧ w < u ∧ Skims edge u x u := by
  cases walk with
  | edge step => exact .inl step
  | extend before high step =>
      obtain ⟨u, ancestor, later, entry⟩ := tree.skims_entry before high
      exact .inr ⟨_, u, step, high, ancestor, later, entry⟩

/-- The recurrence: `s` is attained by some edge into `w`, and no edge into `w`
gives less.  An edge from an earlier vertex gives that vertex; one from a later
vertex gives the semidominators of the later vertices above it. -/
theorem isSemidominator_of_edges {semi : Nat → Nat}
    (known : ∀ u, w < u → u < count → IsSemidominator edge u (semi u))
    (positive : 0 < w)
    (attained : ∃ v, edge v w ∧
      ((v ≤ w ∧ s = v) ∨ ∃ u, Ancestor parent u v ∧ w < u ∧ s = semi u))
    (early : ∀ {v}, edge v w → v ≤ w → s ≤ v)
    (late : ∀ {v u}, edge v w → Ancestor parent u v → w < u → s ≤ semi u) :
    IsSemidominator edge w s where
  walk := by
    obtain ⟨v, step, ⟨_, rfl⟩ | ⟨u, ancestor, later, rfl⟩⟩ := attained
    · exact .edge step
    · have within := tree.edge_lt step
      have uWithin : u < count := by
        have := tree.ancestor_le ancestor within.1
        omega
      exact tree.skims_through (known u later uWithin).walk later ancestor step
  least := by
    intro x walk
    rcases tree.skims_cases walk with step | ⟨v, u, step, _, ancestor, later, entry⟩
    · by_cases below : x ≤ w
      · exact early step below
      · have within := tree.edge_lt step
        have semi := known x (by omega) within.1
        have bound := late step (.self x) (by omega)
        have := tree.semidominator_lt semi (by omega) within.1
        omega
    · have uWithin : u < count := (tree.skims_lt entry).2
      exact Nat.le_trans (late step ancestor later) ((known u later uWithin).least entry)

/-! ## Dominance -/

/-- A vertex guards a later one exactly when no ancestor of that, numbered
between, can be entered from before it. -/
theorem guards_iff (proper : a < w) (within : w < count) :
    Guards edge a w ↔
      ∀ y x, Ancestor parent y w → a < y → Skims edge y x y → a ≤ x := by
  constructor
  · intro guards y x between below walk
    by_contra early
    have yWithin : y < count := (tree.skims_lt walk).2
    have xWithin : x < count := (tree.skims_lt walk).1
    -- The path of the tree to `x`, the walk to `y` and the path of the tree to `w` avoid `a`.
    have toX : Relation.ReflTransGen (fun u v => edge u v ∧ v ≠ a) 0 x :=
      Relation.ReflTransGen.mono
        (fun u v step => ⟨step.1, by have := tree.ancestor_le step.2.2 xWithin; omega⟩)
        _ _ (tree.walk_down (tree.zero_ancestor xWithin) xWithin)
    have toY : Relation.ReflTransGen (fun u v => edge u v ∧ v ≠ a) x y := by
      have skim {z : Nat} (walk : Skims edge y x z) (notA : z ≠ a) :
          Relation.ReflTransGen (fun u v => edge u v ∧ v ≠ a) x z := by
        induction walk with
        | edge step => exact .single ⟨step, notA⟩
        | extend _ high step inductionHypothesis =>
            exact (inductionHypothesis (by omega)).tail ⟨step, notA⟩
      exact skim walk (by omega)
    have toW : Relation.ReflTransGen (fun u v => edge u v ∧ v ≠ a) y w :=
      Relation.ReflTransGen.mono (fun u v step => ⟨step.1, by omega⟩)
        _ _ (tree.walk_down between within)
    exact guards (by omega) ((toX.trans toY).trans toW)
  · intro entries notStart past
    rcases skims_of_past notStart past with below | ⟨_, x, early, walk⟩
    · omega
    · obtain ⟨y, between, later, entry⟩ := tree.skims_entry walk proper
      have := entries y x between later entry
      omega

/-- A vertex that guards another is its ancestor: the path of the tree is a
walk. -/
theorem ancestor_of_guards (guards : Guards edge a w) (within : w < count) :
    Ancestor parent a w := by
  by_cases atStart : 0 = a
  · exact atStart ▸ tree.zero_ancestor within
  · by_contra notAncestor
    refine guards atStart (Relation.ReflTransGen.mono (fun u v step => ⟨step.1, ?_⟩)
      _ _ (tree.walk_down (tree.zero_ancestor within) within))
    rintro rfl
    exact notAncestor step.2.2

/-! ## Immediate dominators -/

/-- When no vertex between the semidominator and a vertex has a smaller
semidominator, the semidominator is the immediate dominator. -/
theorem isImmediateDominator_of_semi {semi : Nat → Nat}
    (known : ∀ u, 0 < u → u < count → IsSemidominator edge u (semi u))
    (positive : 0 < w) (within : w < count)
    (none : ∀ {y}, Ancestor parent y w → semi w < y → semi w ≤ semi y) :
    IsImmediateDominator parent edge (semi w) w where
  ancestor := tree.semidominator_ancestor (known w positive within) positive within
  proper := tree.semidominator_lt (known w positive within) positive within
  guards := by
    refine (tree.guards_iff
      (tree.semidominator_lt (known w positive within) positive within) within).mpr ?_
    intro y x between later entry
    have yWithin : y < count := (tree.skims_lt entry).2
    have := none between later
    have := (known y (by omega) yWithin).least entry
    omega
  last := by
    intro v ancestor later proper guards
    have entry := (known w positive within).walk
    have := (tree.guards_iff proper within).mp guards w _ (.self w) proper entry
    omega

/-- When a vertex `u` between the semidominator and a vertex has the least
semidominator, and a smaller one, the two share their immediate dominator. -/
theorem isImmediateDominator_of_least {semi : Nat → Nat}
    (known : ∀ u, 0 < u → u < count → IsSemidominator edge u (semi u))
    (positive : 0 < w) (within : w < count)
    (between : Ancestor parent u w) (below : semi w < u) (smaller : semi u < semi w)
    (least : ∀ {y}, Ancestor parent y w → semi w < y → semi u ≤ semi y)
    (upper : IsImmediateDominator parent edge d u) :
    IsImmediateDominator parent edge d w := by
  have uWithin : u < count := by
    have := tree.ancestor_le between within
    omega
  have notSelf : u ≠ w := by
    rintro rfl
    omega
  have uBefore : u < w := by
    have := tree.ancestor_le between within
    omega
  have dProper := upper.proper
  have dGuards := (tree.guards_iff upper.proper uWithin).mp upper.guards
  have dEarly : d ≤ semi u :=
    dGuards u _ (.self u) upper.proper (known u (by omega) uWithin).walk
  refine
    { ancestor := upper.ancestor.trans between
      proper := by omega
      guards := ?_
      last := ?_ }
  · refine (tree.guards_iff (by omega) within).mpr ?_
    intro y x yBetween later entry
    have yWithin : y < count := (tree.skims_lt entry).2
    by_cases high : y ≤ u
    · exact dGuards y x (tree.ancestor_of_le yBetween between within high) later entry
    · have := least yBetween (by omega)
      have := (known y (by omega) yWithin).least entry
      omega
  · intro v ancestor later proper guards
    have entries := (tree.guards_iff proper within).mp guards
    by_cases high : v < u
    · have vAncestor := tree.ancestor_of_le ancestor between within (by omega)
      refine upper.last vAncestor later high ((tree.guards_iff high uWithin).mpr ?_)
      intro y x yBetween yLater entry
      exact entries y x (yBetween.trans between) yLater entry
    · have := entries w _ (.self w) proper (known w positive within).walk
      omega

end DepthFirst

end FlowRegions
