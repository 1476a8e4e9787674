import FlowRegions.DisjointSet
import FlowRegions.Proofs.Lists
import Mathlib.Tactic.Common

/-!
Contract: which element names the set of each element, and what the operations
do to it.

`RootAt` describes the path from an element to the root of its set without
fuel.  In a forest every element has such a path, and no path is longer than
the number of elements, so the fuelled walks arrive.

Owns:
- `DisjointSet.Forest`, kept by compressing and linking;
- the root of every element after each of them.
-/

namespace FlowRegions.DisjointSet

/-- The parent entries lead from `v` to the root `r` in `steps` steps. -/
inductive RootAt (sets : DisjointSet) : Nat → Nat → Nat → Prop where
  | here {v : Nat} (isRoot : sets.parentOf v = v) : RootAt sets 0 v v
  | up {steps v r : Nat} (notRoot : sets.parentOf v ≠ v)
      (rest : RootAt sets steps (sets.parentOf v) r) : RootAt sets (steps + 1) v r

/-- Every path of parent entries ends, and stays among the elements. -/
structure Forest (sets : DisjointSet) : Prop where
  parent_lt : ∀ {v}, v < sets.size → sets.parentOf v < sets.size
  rooted : ∀ v, ∃ steps r, RootAt sets steps v r

variable {sets : DisjointSet} {steps v w r x s : Nat}

/-! ## Paths -/

theorem parentOf_of_size_le (beyond : sets.size ≤ v) : sets.parentOf v = v := by
  unfold size at beyond
  unfold parentOf
  rw [Array.getD_eq_getD_getElem?, Array.getElem?_eq_none beyond]
  rfl

theorem RootAt.isRoot (path : RootAt sets steps v r) : sets.parentOf r = r := by
  induction path with
  | here isRoot => exact isRoot
  | up _ _ inductionHypothesis => exact inductionHypothesis

theorem RootAt.unique {steps' r' : Nat} (first : RootAt sets steps v r)
    (second : RootAt sets steps' v r') : steps = steps' ∧ r = r' := by
  induction first generalizing steps' with
  | here isRoot =>
      cases second with
      | here => exact ⟨rfl, rfl⟩
      | up notRoot => exact absurd isRoot notRoot
  | up notRoot _ inductionHypothesis =>
      cases second with
      | here isRoot => exact absurd isRoot notRoot
      | up _ rest =>
          obtain ⟨sameSteps, sameRoot⟩ := inductionHypothesis rest
          exact ⟨by omega, sameRoot⟩

/-- The elements on a path differ, since each is at its own distance from the
root. -/
theorem RootAt.exists_elements (forest : sets.Forest) (path : RootAt sets steps v r)
    (within : v < sets.size) :
    ∃ elements : List Nat, elements.length = steps + 1 ∧ elements.Nodup ∧
      (∀ u ∈ elements, u < sets.size ∧ ∃ fewer ≤ steps, RootAt sets fewer u r) := by
  induction path with
  | @here v isRoot =>
      refine ⟨[v], rfl, by simp, ?_⟩
      intro u member
      rw [List.mem_singleton.mp member]
      exact ⟨within, 0, Nat.le_refl 0, .here isRoot⟩
  | @up steps v r notRoot rest inductionHypothesis =>
      obtain ⟨elements, length, distinct, members⟩ :=
        inductionHypothesis (forest.parent_lt within)
      have fresh : v ∉ elements := by
        intro member
        obtain ⟨_, fewer, bound, shorter⟩ := members v member
        have := (shorter.unique (.up notRoot rest)).1
        omega
      refine ⟨v :: elements, by rw [List.length_cons, length],
        List.nodup_cons.mpr ⟨fresh, distinct⟩, ?_⟩
      intro u member
      rcases List.mem_cons.mp member with rfl | later
      · exact ⟨within, steps + 1, Nat.le_refl _, .up notRoot rest⟩
      · obtain ⟨uWithin, fewer, bound, shorter⟩ := members u later
        exact ⟨uWithin, fewer, by omega, shorter⟩

/-- No path is longer than the number of elements. -/
theorem RootAt.steps_le (forest : sets.Forest) (path : RootAt sets steps v r) :
    steps ≤ sets.size := by
  by_cases within : v < sets.size
  · obtain ⟨elements, length, distinct, members⟩ := path.exists_elements forest within
    have bound := length_le_of_lt distinct fun u member => (members u member).1
    rw [length] at bound
    omega
  · have isRoot : sets.parentOf v = v := parentOf_of_size_le (by omega)
    have := (path.unique (.here isRoot)).1
    omega

theorem RootAt.climb_eq {fuel : Nat} (path : RootAt sets steps v r) (enough : steps ≤ fuel) :
    sets.climb fuel v = r := by
  induction path generalizing fuel with
  | here isRoot =>
      cases fuel with
      | zero => rfl
      | succ fuel => simp [climb, DisjointSet.isRoot, isRoot]
  | up notRoot _ inductionHypothesis =>
      obtain ⟨fuel, rfl⟩ : ∃ less, fuel = less + 1 := ⟨fuel - 1, by omega⟩
      simp only [climb, DisjointSet.isRoot, beq_iff_eq, if_neg notRoot]
      exact inductionHypothesis (by omega)

theorem RootAt.root_eq (forest : sets.Forest) (path : RootAt sets steps v r) :
    sets.root v = r :=
  path.climb_eq (path.steps_le forest)

theorem Forest.rootAt (forest : sets.Forest) (v : Nat) :
    ∃ steps, RootAt sets steps v (sets.root v) := by
  obtain ⟨steps, r, path⟩ := forest.rooted v
  exact ⟨steps, path.root_eq forest ▸ path⟩

theorem Forest.root_lt (forest : sets.Forest) (within : v < sets.size) :
    sets.root v < sets.size := by
  obtain ⟨steps, path⟩ := forest.rootAt v
  revert within
  generalize sets.root v = r at path
  intro within
  induction path with
  | here => exact within
  | up _ _ inductionHypothesis => exact inductionHypothesis (forest.parent_lt within)

/-! ## Singletons -/

theorem forest_singletons (count : Nat) : (singletons count).Forest where
  parent_lt := fun within => by rwa [parentOf_singletons]
  rooted := fun v => ⟨0, v, .here (parentOf_singletons count v)⟩

theorem root_singletons (count v : Nat) : (singletons count).root v = v :=
  (RootAt.here (parentOf_singletons count v)).root_eq (forest_singletons count)

/-! ## Compression -/

/-- Pointing an element at its root leaves every root as it was. -/
theorem RootAt.setParent_root (path : RootAt sets steps x s) {above : Nat}
    (toRoot : RootAt sets above v r) (notRoot : v ≠ r) :
    ∃ fewer, RootAt (sets.setParent v r) fewer x s := by
  have vNotRoot : sets.parentOf v ≠ v := by
    cases toRoot with
    | here => exact absurd rfl notRoot
    | up different => exact different
  have rootStays : (sets.setParent v r).parentOf r = r := by
    rw [parentOf_setParent, if_neg (fun both => notRoot both.1), toRoot.isRoot]
  induction path with
  | @here x isRoot =>
      have notV : v ≠ x := by
        rintro rfl
        exact vNotRoot isRoot
      refine ⟨0, .here ?_⟩
      rw [parentOf_setParent, if_neg (fun both => notV both.1), isRoot]
  | @up steps x s different rest inductionHypothesis =>
      by_cases changed : v = x ∧ v < sets.size
      · obtain ⟨rfl, within⟩ := changed
        have newParent : (sets.setParent v r).parentOf v = r := by
          rw [parentOf_setParent, if_pos ⟨rfl, within⟩]
        obtain ⟨-, rfl⟩ := (RootAt.up different rest).unique toRoot
        refine ⟨1, .up ?_ ?_⟩
        · rw [newParent]
          exact fun same => notRoot same.symm
        · rw [newParent]
          exact .here rootStays
      · obtain ⟨fewer, shorter⟩ := inductionHypothesis
        have sameParent : (sets.setParent v r).parentOf x = sets.parentOf x := by
          rw [parentOf_setParent, if_neg changed]
        refine ⟨fewer + 1, .up ?_ ?_⟩
        · rwa [sameParent]
        · rwa [sameParent]

theorem Forest.setParent_root (forest : sets.Forest) {above : Nat}
    (toRoot : RootAt sets above v r) (notRoot : v ≠ r) (within : r < sets.size) :
    (sets.setParent v r).Forest where
  parent_lt := by
    intro u uWithin
    rw [size_setParent] at uWithin ⊢
    rw [parentOf_setParent]
    split
    · exact within
    · exact forest.parent_lt uWithin
  rooted := by
    intro u
    obtain ⟨steps, s, path⟩ := forest.rooted u
    obtain ⟨fewer, shorter⟩ := path.setParent_root toRoot notRoot
    exact ⟨fewer, s, shorter⟩

/-- Shortening a path keeps the forest and every root, whatever the fuel. -/
theorem Forest.shorten (fuel : Nat) (forest : sets.Forest) {above : Nat}
    (toRoot : RootAt sets above v r) :
    (shorten r fuel sets v).Forest ∧
      ∀ {steps x s}, RootAt sets steps x s → ∃ fewer, RootAt (shorten r fuel sets v) fewer x s := by
  induction fuel generalizing sets v above with
  | zero => exact ⟨forest, fun path => ⟨_, path⟩⟩
  | succ fuel inductionHypothesis =>
      rw [DisjointSet.shorten]
      split
      · exact ⟨forest, fun path => ⟨_, path⟩⟩
      · rename_i notDone
        cases toRoot with
        | here isRoot => exact absurd isRoot notDone
        | @up above _ _ notRoot rest =>
            have notSelf : v ≠ r := by
              rintro rfl
              exact notRoot rest.isRoot
            have whole : RootAt sets (above + 1) v r := .up notRoot rest
            have within : r < sets.size := by
              have vWithin : v < sets.size := by
                by_contra beyond
                exact notRoot (parentOf_of_size_le (by omega))
              exact whole.root_eq forest ▸ forest.root_lt vWithin
            obtain ⟨fewer, shorter⟩ := rest.setParent_root whole notSelf
            obtain ⟨kept, roots⟩ :=
              inductionHypothesis (forest.setParent_root whole notSelf within) shorter
            refine ⟨kept, fun path => ?_⟩
            obtain ⟨_, afterOne⟩ := path.setParent_root whole notSelf
            exact roots afterOne

theorem Forest.compress (forest : sets.Forest) (v : Nat) : (sets.compress v).Forest := by
  obtain ⟨_, path⟩ := forest.rootAt v
  exact (forest.shorten sets.size path).1

theorem Forest.root_compress (forest : sets.Forest) (v x : Nat) :
    (sets.compress v).root x = sets.root x := by
  obtain ⟨_, toRoot⟩ := forest.rootAt v
  obtain ⟨_, path⟩ := forest.rootAt x
  obtain ⟨_, shorter⟩ := (forest.shorten sets.size toRoot).2 path
  exact shorter.root_eq (forest.compress v)

/-! ## Linking -/

/-- Attaching one root below another moves what was below it and nothing
else. -/
theorem RootAt.setParent_of_roots (path : RootAt sets steps x s) {below above : Nat}
    (belowRoot : sets.parentOf below = below) (aboveRoot : sets.parentOf above = above)
    (different : below ≠ above) (within : below < sets.size) :
    ∃ more, RootAt (sets.setParent below above) more x (if s = below then above else s) := by
  have aboveStays : (sets.setParent below above).parentOf above = above := by
    rw [parentOf_setParent, if_neg (fun both => different both.1), aboveRoot]
  induction path with
  | @here x isRoot =>
      by_cases moved : x = below
      · subst moved
        have newParent : (sets.setParent x above).parentOf x = above := by
          rw [parentOf_setParent, if_pos ⟨rfl, within⟩]
        rw [if_pos rfl]
        refine ⟨1, .up ?_ ?_⟩
        · rw [newParent]
          exact fun same => different same.symm
        · rw [newParent]
          exact .here aboveStays
      · rw [if_neg moved]
        refine ⟨0, .here ?_⟩
        rw [parentOf_setParent, if_neg (fun both => moved both.1.symm), isRoot]
  | @up steps x s notRoot rest inductionHypothesis =>
      obtain ⟨more, longer⟩ := inductionHypothesis
      have notBelow : below ≠ x := by
        rintro rfl
        exact notRoot belowRoot
      have sameParent : (sets.setParent below above).parentOf x = sets.parentOf x := by
        rw [parentOf_setParent, if_neg (fun both => notBelow both.1)]
      refine ⟨more + 1, .up ?_ ?_⟩
      · rwa [sameParent]
      · rwa [sameParent]

theorem setParent_self (isRoot : sets.parentOf v = v) :
    ∀ x, (sets.setParent v v).parentOf x = sets.parentOf x := by
  intro x
  rw [parentOf_setParent]
  split
  · rename_i same
    rw [← same.1, isRoot]
  · rfl

theorem RootAt.congr {other : DisjointSet} (same : ∀ x, other.parentOf x = sets.parentOf x)
    (path : RootAt sets steps x s) : RootAt other steps x s := by
  induction path with
  | here isRoot => exact .here (by rwa [same])
  | up notRoot _ inductionHypothesis => exact .up (by rwa [same]) (by rwa [same])

/-- The root of every element after a link. -/
theorem Forest.link (forest : sets.Forest) (vWithin : v < sets.size) (wWithin : w < sets.size) :
    (sets.link v w).Forest ∧
      ∀ x, (sets.link v w).root x = if sets.root x = sets.root v then sets.root w
        else sets.root x := by
  unfold DisjointSet.link
  have first := forest.compress v
  have second := first.compress w
  have roots (x : Nat) : ((sets.compress v).compress w).root x = sets.root x := by
    rw [first.root_compress, forest.root_compress]
  have sizes : ((sets.compress v).compress w).size = sets.size := by
    rw [size_compress, size_compress]
  simp only [forest.root_compress]
  generalize (sets.compress v).compress w = compressed at second roots sizes
  have rooted (x : Nat) : compressed.parentOf (sets.root x) = sets.root x := by
    obtain ⟨_, path⟩ := second.rootAt x
    rw [roots] at path
    exact path.isRoot
  have vRoot : sets.root v < sets.size := forest.root_lt vWithin
  have wRoot : sets.root w < sets.size := forest.root_lt wWithin
  have moved (x : Nat) : ∃ more, RootAt (compressed.setParent (sets.root v) (sets.root w)) more x
      (if sets.root x = sets.root v then sets.root w else sets.root x) := by
    obtain ⟨steps, path⟩ := second.rootAt x
    rw [roots] at path
    by_cases same : sets.root v = sets.root w
    · rw [← same]
      have target : (if sets.root x = sets.root v then sets.root v else sets.root x) =
          sets.root x := by
        split
        · rename_i equal
          exact equal.symm
        · rfl
      rw [target]
      exact ⟨steps, path.congr (setParent_self (rooted v))⟩
    · exact path.setParent_of_roots (rooted v) (rooted w) same (by rwa [sizes])
  have linked : (compressed.setParent (sets.root v) (sets.root w)).Forest :=
    { parent_lt := by
        intro u uWithin
        rw [size_setParent] at uWithin ⊢
        rw [parentOf_setParent]
        split
        · rwa [sizes]
        · exact second.parent_lt uWithin
      rooted := fun x => by
        obtain ⟨more, path⟩ := moved x
        exact ⟨more, _, path⟩ }
  refine ⟨linked, fun x => ?_⟩
  obtain ⟨_, path⟩ := moved x
  exact path.root_eq linked

end FlowRegions.DisjointSet
