import FlowRegions.Proofs.Structuring.Contents

/-!
Contract: every place that a jump leads to is kept.

The labels of a state are the vertices that its jumps lead to.  Structuring
drops leaves in two ways: it prunes regions that are not reached, which happens
before anything else, and it folds leaves that only test into the branch before
them, which spares labels.  So the leaf of every label stays below some live
region.

Owns: `RegionGraph.Labelled` and that every legal step keeps it.
-/

namespace FlowRegions

open FlowRegions.Digraph (root terminator)

namespace RegionGraph

variable {config : Config} {labels : List Nat} {graph changed : RegionGraph}
  {collapse : Collapse} {v new label : Nat}

/-- A composite keeps the leaves of its members, but for a test that is folded
and is no label. -/
theorem Matches.mem_leaves_new (wellFormed : graph.WellFormed) (live : graph.isLive v = true)
    (found : Matches config labels graph v collapse)
    (collapsed : Collapsed graph collapse new changed) {x : Nat} (member : x ∈ collapse.members)
    (isLeaf : label ∈ graph.leaves x) :
    label ∈ changed.leaves new ∨ (x ≠ collapse.entry ∧ label ∉ labels) := by
  obtain ⟨whole, opened, folded, made⟩ := found.made wellFormed live
  rw [made.members.mem_iff, List.mem_append] at member
  rcases member with kept | isFolded
  · rw [leaves_eq_gather] at isLeaf ⊢
    exact .inl ((made.leaves_perm wellFormed (found.fits wellFormed live) collapsed
      fun _ _ => rfl).mem_iff.mpr (List.mem_flatMap.mpr ⟨x, kept, isLeaf⟩))
  · obtain ⟨notEntry, v, vertex, head, outer, inner, foldable, _⟩ := made.folds x isFolded
    obtain ⟨cond, isNode⟩ := foldable.leaf
    rcases (wellFormed.mem_leaves isNode).mp isLeaf with own | ⟨_, isChild, _⟩
    · cases own
      exact .inr ⟨notEntry, foldable.notLabel⟩
    · cases isChild

/-! ## Labels -/

/-- The labels are where jumps lead, and each of them is a leaf below some live
region. -/
structure Labelled (labels : List Nat) (graph : RegionGraph) : Prop where
  jumps : ∀ {i target cond}, graph.table i = some ⟨.jump target, cond⟩ →
    ∃ w ∈ labels, graph.firstVertex? target = some w
  held : ∀ w ∈ labels, ∃ v, graph.isLive v = true ∧ w ∈ graph.leaves v
  /-- A region that is no jump starts with one of its leaves. -/
  starts : ∀ {v}, graph.isLive v = true → graph.isJump v = false →
    ∃ w ∈ graph.leaves v, graph.firstVertex? v = some w

section Effects

variable (wellFormed : graph.WellFormed) (labelled : Labelled labels graph)
include wellFormed labelled

omit wellFormed in
/-- What is known about an old region stays. -/
theorem Labelled.starts_old (nested : graph.table.Nested) (growth : Extends graph changed)
    (live : graph.isLive v = true) (notJump : changed.isJump v = false) :
    ∃ w ∈ changed.leaves v, changed.firstVertex? v = some w := by
  have within := Digraph.lt_size_of_isLive live
  rw [isJump_congr (growth.table_old within)] at notJump
  obtain ⟨w, isLeaf, first⟩ := labelled.starts live notJump
  exact ⟨w, by rwa [growth.leaves_eq nested within],
    (growth.firstVertex?_eq nested within).trans first⟩

omit wellFormed in
theorem Labelled.jumps_old (nested : graph.table.Nested) (growth : Extends graph changed)
    {i target : Nat} {cond : Option Cond} (isJump : graph.table i = some ⟨.jump target, cond⟩) :
    ∃ w ∈ labels, changed.firstVertex? target = some w := by
  obtain ⟨w, isLabel, first⟩ := labelled.jumps isJump
  have earlier := nested.below isJump target (by simp [Node.references])
  have within := Nat.lt_trans earlier (lt_size_of_table isJump)
  exact ⟨w, isLabel, (growth.firstVertex?_eq nested within).trans first⟩

theorem Pruned.keeps_labelled {regions : List Nat} (pruned : Pruned graph regions changed)
    (noLabels : labels = []) : Labelled labels changed where
  jumps := by
    intro i target cond isJump
    rw [pruned.table_eq] at isJump
    exact labelled.jumps_old wellFormed.nested pruned.growth isJump
  held := by
    rw [noLabels]
    simp
  starts := by
    intro v live notJump
    obtain ⟨oldLive, _⟩ := (pruned.live_iff v).mp live
    exact labelled.starts_old wellFormed.nested pruned.growth oldLive notJump

theorem Collapsed.keeps_labelled (live : graph.isLive v = true)
    (found : Matches config labels graph v collapse)
    (collapsed : Collapsed graph collapse new changed) : Labelled labels changed := by
  have fits := found.fits wellFormed live
  have entryLive := fits.live _ fits.entry_mem
  refine ⟨fun {i target cond} isJump => ?_, fun w isLabel => ?_, fun {u} uLive notJump => ?_⟩
  · rcases collapsed.table_cases isJump with
      ⟨_, old⟩ | ⟨_, _, isPart⟩ | ⟨_, isNode⟩
    · exact labelled.jumps_old wellFormed.nested collapsed.growth old
    · obtain ⟨nodes, isSeq, _⟩ := fits.part_shape _ isPart
      cases isSeq
    · exact absurd (by rw [← isNode]; rfl) fits.node_kind
  · obtain ⟨u, uLive, isLeaf⟩ := labelled.held w isLabel
    by_cases member : u ∈ collapse.members
    · refine ⟨new, (collapsed.live_iff new).mpr (.inl rfl), ?_⟩
      exact (found.mem_leaves_new wellFormed live collapsed member isLeaf).resolve_right
        fun dropped => dropped.2 isLabel
    · refine ⟨u, (collapsed.live_iff u).mpr (.inr ⟨uLive, member⟩), ?_⟩
      rwa [collapsed.growth.leaves_eq wellFormed.nested (Digraph.lt_size_of_isLive uLive)]
  · rcases (collapsed.live_iff u).mp uLive with rfl | ⟨oldLive, _⟩
    · obtain ⟨d, isBranch⟩ := List.exists_mem_of_ne_nil _ fits.entry_branches
      obtain ⟨w, isLeaf, first⟩ := labelled.starts entryLive
        (wellFormed.not_isJump_of_mem (mem_branches.mp isBranch).1)
      refine ⟨w, ?_, (found.firstVertex?_new wellFormed live collapsed).trans first⟩
      exact (found.mem_leaves_new wellFormed live collapsed fits.entry_mem isLeaf).resolve_right
        fun dropped => dropped.1 rfl
    · exact labelled.starts_old wellFormed.nested collapsed.growth oldLive notJump

theorem Copied.keeps_labelled {outside : List Nat} (after : changed.WellFormed)
    (live : graph.isLive v = true) (regionNotJump : graph.isJump v = false)
    (copied : Copied graph v outside changed) : Labelled labels changed := by
  have within := Digraph.lt_size_of_isLive live
  refine ⟨fun {i target cond} isJump => ?_, fun w isLabel => ?_, fun {u} uLive notJump => ?_⟩
  · rcases copied.table_cases isJump with
      ⟨_, old⟩ | ⟨_, isTail⟩ | ⟨_, t, place, cond', old, isCopy⟩
    · exact labelled.jumps_old wellFormed.nested copied.growth old
    · cases isTail
    · cases isCopy
      exact labelled.jumps_old wellFormed.nested copied.growth old
  · obtain ⟨u, uLive, isLeaf⟩ := labelled.held w isLabel
    refine ⟨u, (copied.live_iff u).mpr (.inl uLive), ?_⟩
    rwa [copied.growth.leaves_eq wellFormed.nested (Digraph.lt_size_of_isLive uLive)]
  · rcases (copied.live_iff u).mp uLive with oldLive | ⟨low, high⟩
    · exact labelled.starts_old wellFormed.nested copied.growth oldLive notJump
    · rcases Nat.eq_or_lt_of_le low with rfl | fresh
      · obtain ⟨w, isLeaf, first⟩ := labelled.starts live regionNotJump
        refine ⟨w, (after.mem_leaves copied.table_copy).mpr (.inr ⟨v, by simp [Node.children,
          Shape.children], ?_⟩), (copied.firstVertex?_copy wellFormed after within).trans first⟩
        rwa [copied.growth.leaves_eq wellFormed.nested within]
      · obtain ⟨_, _, _, _, isCopy⟩ := copied.table_fresh fresh high
        rw [isJump_iff.mpr ⟨_, _, isCopy⟩] at notJump
        cases notJump

theorem Severed.keeps_labelled {source target w : Nat}
    (targetLive : graph.isLive target = true) (targetNotJump : graph.isJump target = false)
    (first : graph.firstVertex? target = some w)
    (severed : Severed graph source target changed) : Labelled (labels ++ [w]) changed := by
  have targetWithin := Digraph.lt_size_of_isLive targetLive
  have nested := wellFormed.nested
  have held {u label : Nat} (uLive : graph.isLive u = true) (isLeaf : label ∈ graph.leaves u) :
      ∃ u, changed.isLive u = true ∧ label ∈ changed.leaves u := by
    refine ⟨u, (severed.live_iff u).mpr (.inr uLive), ?_⟩
    rwa [severed.growth.leaves_eq nested (Digraph.lt_size_of_isLive uLive)]
  refine ⟨fun {i place cond} isJump => ?_, fun label isLabel => ?_, fun {u} uLive notJump => ?_⟩
  · rcases severed.table_cases isJump with ⟨_, old⟩ | ⟨_, isNew⟩
    · obtain ⟨label, isLabel, placeFirst⟩ := labelled.jumps_old nested severed.growth old
      exact ⟨label, List.mem_append_left _ isLabel, placeFirst⟩
    · cases isNew
      exact ⟨w, by simp, (severed.growth.firstVertex?_eq nested targetWithin).trans first⟩
  · rcases List.mem_append.mp isLabel with old | isNew
    · obtain ⟨u, uLive, isLeaf⟩ := labelled.held label old
      exact held uLive isLeaf
    · obtain ⟨w', isLeaf, sameFirst⟩ := labelled.starts targetLive targetNotJump
      rw [first] at sameFirst
      cases sameFirst
      rw [List.mem_singleton.mp isNew]
      exact held targetLive isLeaf
  · rcases (severed.live_iff u).mp uLive with rfl | oldLive
    · rw [isJump_iff.mpr ⟨_, _, severed.table_new⟩] at notJump
      cases notJump
    · exact labelled.starts_old nested severed.growth oldLive notJump

end Effects

/-- A region that is entered from two places is no jump. -/
theorem WellFormed.not_isJump_of_entrants (wellFormed : graph.WellFormed) {p q : Nat}
    (first : v ∈ graph.successors p) (second : v ∈ graph.successors q) (different : p ≠ q) :
    graph.isJump v = false := by
  cases isJump : graph.isJump v with
  | false => rfl
  | true => exact absurd (wellFormed.jump_entrant isJump first second) different

end RegionGraph

/-- A legal step keeps the labels of a state. -/
theorem State.Legal.keeps_labelled {config : Config} {state : State} {action : Action}
    (wellFormed : state.graph.WellFormed)
    (labelled : RegionGraph.Labelled state.labels state.graph)
    (early : state.labels = [] ∨ state.graph.AllReached) (legal : Legal config state action) :
    RegionGraph.Labelled (state.perform action).1.labels (state.perform action).1.graph := by
  have after := legal.keeps_wellFormed wellFormed
  cases legal with
  | @prune regions someStray strayIff =>
      refine (RegionGraph.pruned_isolateAll wellFormed.consistent regions).keeps_labelled wellFormed
        labelled (early.resolve_right fun all => ?_)
      obtain ⟨r, isStray⟩ := List.exists_mem_of_ne_nil _ someStray
      obtain ⟨live, unreached⟩ := (strayIff r).mp isStray
      exact unreached (all r live)
  | collapse all live found =>
      exact (RegionGraph.collapsed_collapse wellFormed
        (found.fits wellFormed live)).keeps_labelled wellFormed labelled live found
  | duplicate all few live entering back inside away around isOutside ahead =>
      have notJump := wellFormed.not_isJump_of_entrants back (entering _ isOutside)
        fun same => inside (same ▸ isOutside)
      exact (RegionGraph.copied_giveCopy wellFormed.consistent (Digraph.lt_size_of_isLive live)
        entering).keeps_labelled wellFormed labelled after live notJump
  | @cut source target other reason all live edge different entering ahead =>
      have targetLive := wellFormed.isLive_of_mem_exits edge
      have notJump := wellFormed.not_isJump_of_entrants entering
        (RegionGraph.mem_exits.mp edge).1 different
      obtain ⟨w, _, first⟩ := labelled.starts targetLive notJump
      have labels : (state.perform (.cut ⟨source, target, reason⟩)).1.labels =
          state.labels ++ [w] := by
        change state.labels ++ (state.graph.firstVertex? target).toList = _
        rw [first]
        rfl
      rw [labels]
      exact (RegionGraph.severed_redirect wellFormed.consistent source target).keeps_labelled
        wellFormed labelled targetLive notJump first

end FlowRegions
