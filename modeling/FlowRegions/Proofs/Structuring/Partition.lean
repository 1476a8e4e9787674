import FlowRegions.Proofs.Structuring.Coverage
import FlowRegions.Proofs.Structuring.Routines

/-!
Contract: the tree of a routine and the vertices it leaves out are all of its
blocks.

A block that control flow reaches from the entry is the leaf of one region of
the tree, copies left aside, or was folded into a condition that the tree tests.
Any other block is left out as unreachable, and the tree mentions it nowhere.

Owns: `Routine.structured_partitions`, which says so for every configuration.
-/

namespace FlowRegions

open FlowRegions.Digraph (root terminator)

namespace Tree

/-- How many leaves outside of copies run a vertex. -/
def occurrences (tree : Tree) (v : Nat) : Nat :=
  (tree.walkWhere fun node => node.kind != .tail).countP
    fun (_, node) => node.leafVertex? == some v

theorem mem_leaves_of_occurrences {tree : Tree} {v : Nat} (occurs : 0 < tree.occurrences v) :
    v ∈ tree.leaves := by
  obtain ⟨⟨i, node⟩, met, isLeaf⟩ := List.countP_pos_iff.mp occurs
  exact List.mem_filterMap.mpr ⟨(i, node), NodeTable.walk_subset _ _ _ _ met, by simpa using isLeaf⟩

end Tree

/-! ## The tree of a state -/

namespace State

theorem walkWhere_tree (state : State) (e : Nat) (enter : Node → Bool) :
    (state.tree e).walkWhere enter = state.graph.table.walk enter state.graph.size e := by
  rw [Tree.walkWhere, table_tree, size_tree]
  rfl

theorem leaves_tree (state : State) (e : Nat) : (state.tree e).leaves = state.graph.leaves e := by
  rw [Tree.leaves, Tree.walk, walkWhere_tree]
  rfl

theorem occurrences_tree (state : State) (e v : Nat) :
    (state.tree e).occurrences v = (state.graph.ownLeaves e).count v := by
  rw [Tree.occurrences, walkWhere_tree, ← List.count_filterMap, List.filterMap_eq_flatMap_toList]
  rfl

/-- A vertex that the region of a tree tests is tested by a node of the tree. -/
theorem exists_of_mem_ownTests {state : State} {e w : Nat}
    (isTested : w ∈ state.graph.ownTests e) :
    ∃ i node, (i, node) ∈ (state.tree e).walk ∧ w ∈ node.tested := by
  obtain ⟨⟨i, node⟩, met, isTested⟩ := List.mem_flatMap.mp isTested
  refine ⟨i, node, ?_, isTested⟩
  rw [Tree.walk, walkWhere_tree]
  exact NodeTable.walk_subset _ _ _ _ met

/-- What the tree of a run holds when accounts are right and its entry is all
that is live. -/
theorem covers_tree {config : Config} {kept : Nat → Prop} {state : State} {e : Nat}
    (accounted : RegionGraph.Accounted config kept state.graph)
    (only : ∀ v, state.graph.isLive v = true ↔ v = e) :
    (∀ v ∈ (state.tree e).leaves, kept v) ∧
    (∀ i node, (state.tree e).table i = some node → ∀ v ∈ node.tested, kept v) ∧
    ∀ v, kept v → (state.tree e).occurrences v = 1 ∨
      (state.tree e).occurrences v = 0 ∧ config.onlyTests v = true ∧
        ∃ i node, (i, node) ∈ (state.tree e).walk ∧ v ∈ node.tested := by
  have liveSet : state.graph.liveSet = {e} := by
    ext v
    rw [RegionGraph.mem_liveSet, Finset.mem_singleton, only]
  refine ⟨fun v isLeaf => ?_, fun i node found v isTested => ?_, fun v isKept => ?_⟩
  · rw [leaves_tree] at isLeaf
    exact accounted.leaf ((only e).mpr rfl) isLeaf
  · rw [table_tree] at found
    exact accounted.cond found v isTested
  · have once := accounted.once isKept
    rw [RegionGraph.tally, liveSet, Finset.sum_singleton, ← occurrences_tree] at once
    rcases once with one | ⟨zero, onlyTests, u, live, isTested⟩
    · exact .inl one
    · rw [only] at live
      exact .inr ⟨zero, onlyTests, exists_of_mem_ownTests (live ▸ isTested)⟩

end State

/-! ## The tree of a run -/

namespace Structuring

variable {α : Type} {config : Config} {input : Digraph α} {structuring : Structuring}

/-- A run ends with right accounts, and has left out the strays of where it
starts. -/
theorem exists_final_accounted (sound : RegionGraph.Sound input)
    (accepted : Structuring.ofGraph config input = .ok structuring) {tree : Tree}
    (result : structuring.run.2.2 = .ok tree) :
    ∃ final entry, tree = final.tree entry ∧ (∀ v, final.graph.isLive v = true ↔ v = entry) ∧
      State.Sifted structuring.state final ∧
      RegionGraph.Accounted config structuring.state.Keeps final.graph := by
  obtain ⟨final, entry, reached, finished, isTree⟩ := exists_final sound accepted result
  obtain ⟨_, _, _, _, ⟨_, _, taken⟩, proper⟩ := proper_ofGraph sound accepted
  obtain ⟨_, only⟩ := (proper.reached reached).isLive_iff_of_finish? finished
  refine ⟨final, entry, isTree, only, ?_⟩
  rcases reached.cases_head with rfl | ⟨next, first, behind⟩
  · have all := proper.allReached_of_finish? finished
    exact ⟨.of_allReached proper.wellFormed (unreachable_ofGraph accepted) all,
      proper.accounted_start taken.node_eq all⟩
  · exact ⟨sifted_of_steps sound accepted first behind,
      proper.accounted_later taken.node_eq first behind⟩

end Structuring

/-! ## The tree of a routine -/

namespace Routine

variable {σ ε : Type} {routine : Routine σ ε}

def IsReachable (routine : Routine σ ε) (v : Nat) : Prop :=
  2 ≤ v ∧ routine.flow.Reaches .forward (vertexAt routine.entry.toNat) v

section Valid

variable (valid : routine.fault? = none)
include valid

/-- The root reaches what the entry reaches. -/
theorem reaches_root_iff {v : Nat} (real : 2 ≤ v) :
    routine.flow.Reaches .forward root v ↔
      routine.flow.Reaches .forward (vertexAt routine.entry.toNat) v := by
  have isEntry {u : Nat} :
      routine.flow.Edge .forward root u ↔ u = vertexAt routine.entry.toNat := by
    change u ∈ routine.flow.successors root ↔ _
    rw [successors_root valid, List.mem_singleton]
    rfl
  rw [Digraph.reaches_iff, Digraph.reaches_iff]
  constructor
  · intro reaches
    rcases reaches.cases_head with same | ⟨u, edge, rest⟩
    · rw [← same] at real
      cases real
    · exact isEntry.mp edge ▸ rest
  · exact .head (isEntry.mpr rfl)

variable {config : Config} {start : Structuring}
  (accepted : Structuring.ofGraph config routine.flow = .ok start)
include accepted

/-- A run over a routine starts with the blocks as live vertices. -/
theorem isLive_start_iff (v : Nat) : start.state.graph.isLive v = true ↔
    ∃ position < routine.blocks.size, v = vertexAt position := by
  obtain ⟨_, _, _, _, ⟨_, _, taken⟩, _⟩ := Structuring.proper_ofGraph (sound_flow valid) accepted
  rw [taken.isLive_iff, size_flow valid, isDetached_flow valid]
  constructor
  · rintro ⟨real, within, _⟩
    exact ⟨v - 2, by omega, by rw [vertexAt]; omega⟩
  · rintro ⟨position, within, rfl⟩
    rw [vertexAt]
    exact ⟨by omega, by omega, rfl⟩

/-- A run over a routine keeps what the routine reaches. -/
theorem keeps_start_iff (v : Nat) : start.state.Keeps v ↔ routine.IsReachable v := by
  obtain ⟨_, _, _, _, ⟨_, entries, taken⟩, proper⟩ :=
    Structuring.proper_ofGraph (sound_flow valid) accepted
  have sameEdges : start.state.graph.Edge .forward = routine.flow.Edge .forward := by
    funext u v
    refine propext ((taken.mem_successors_iff entries).trans (and_iff_right_of_imp ?_))
    rintro edge rfl
    rw [successors_flow valid] at edge
    cases edge
  have sameReach : start.state.graph.Reaches .forward root v ↔
      routine.flow.Reaches .forward root v := by
    rw [Digraph.reaches_iff, Digraph.reaches_iff, sameEdges]
  rw [State.Keeps, sameReach]
  constructor
  · rintro ⟨live, reaches⟩
    have real := proper.wellFormed.consistent.two_le_of_isLive live
    exact ⟨real, (reaches_root_iff valid real).mp reaches⟩
  · rintro ⟨real, reaches⟩
    have fromRoot := (reaches_root_iff valid real).mpr reaches
    refine ⟨proper.wellFormed.isLive_of_reaches (sameReach.mpr fromRoot) ?_ ?_, fromRoot⟩
    · simp only [root]
      omega
    · simp only [terminator]
      omega

end Valid

/-- Structuring loses, invents and repeats no block: whatever the configuration,
the tree of a valid routine leaves out exactly the blocks that are not reachable,
in ascending order; its leaves and the conditions of its nodes mention reachable
blocks only; and every reachable block is one leaf of the tree outside of copies,
or none and then tested by the condition of a node.  When no block counts as one
that only tests, there is one leaf for each of them, and the leaves are the
reachable blocks. -/
theorem structured_partitions (valid : routine.fault? = none) (adjust : Config → Config)
    {tree : Tree} (structured : (routine.structured adjust).2 = .ok tree) :
    (tree.unreachable.Pairwise (· < ·) ∧
      ∀ v, v ∈ tree.unreachable ↔
        (∃ position < routine.blocks.size, v = vertexAt position) ∧ ¬ routine.IsReachable v) ∧
    (∀ v ∈ tree.leaves, routine.IsReachable v) ∧
    (∀ i node cond, tree.table i = some node → node.cond = some cond →
      ∀ v ∈ cond.vertices, routine.IsReachable v) ∧
    (∀ v, routine.IsReachable v → tree.occurrences v = 1 ∨
      tree.occurrences v = 0 ∧ ∃ i node cond, (i, node) ∈ tree.walk ∧
        node.cond = some cond ∧ v ∈ cond.vertices) ∧
    ((∀ v, (adjust routine.config).onlyTests v = false) →
      (∀ v, routine.IsReachable v → tree.occurrences v = 1) ∧
      (sortNats tree.leaves.eraseDups).Pairwise (· < ·) ∧
      ∀ v, v ∈ sortNats tree.leaves.eraseDups ↔ routine.IsReachable v) := by
  have sound := sound_flow valid
  obtain ⟨start, accepted, result⟩ := exists_run_of_structured valid structured
  obtain ⟨final, entry, rfl, only, sifted, accounted⟩ :=
    Structuring.exists_final_accounted sound accepted result
  have isKept := keeps_start_iff valid accepted
  obtain ⟨leaf, cond, once⟩ := State.covers_tree accounted only
  refine ⟨⟨?_, fun v => ?_⟩, fun v isLeaf => (isKept v).mp (leaf v isLeaf),
    fun i node condition found isCond v isTested => ?_, fun v reachable => ?_, fun unset => ?_⟩
  · change final.unreachable.Pairwise _
    rw [sifted.unreachable_eq]
    exact State.pairwise_strays _ _
  · change v ∈ final.unreachable ↔ _
    obtain ⟨_, _, _, _, _, proper⟩ := Structuring.proper_ofGraph sound accepted
    rw [sifted.unreachable_eq, State.mem_strays proper.wellFormed.consistent, ← isKept,
      ← isLive_start_iff valid accepted]
    exact and_congr_right fun live => not_congr (and_iff_right live).symm
  · exact (isKept v).mp (cond i node found v (Node.mem_tested.mpr ⟨condition, isCond, isTested⟩))
  · refine (once v ((isKept v).mpr reachable)).imp_right fun ⟨zero, _, i, node, met, isTested⟩ => ?_
    obtain ⟨condition, isCond, isVertex⟩ := Node.mem_tested.mp isTested
    exact ⟨zero, i, node, condition, met, isCond, isVertex⟩
  · have always (v : Nat) (reachable : routine.IsReachable v) :
        (final.tree entry).occurrences v = 1 := by
      refine (once v ((isKept v).mpr reachable)).resolve_right fun ⟨_, onlyTests, _⟩ => ?_
      rw [unset v] at onlyTests
      cases onlyTests
    refine ⟨always, pairwise_lt_sortNats (RegionGraph.nodup_eraseDups _), fun v => ?_⟩
    rw [sortNats, mem_sortBy, List.mem_eraseDups]
    refine ⟨fun isLeaf => (isKept v).mp (leaf v isLeaf), fun reachable => ?_⟩
    exact Tree.mem_leaves_of_occurrences (by rw [always v reachable]; exact Nat.one_pos)

/-- A block at position 1 that only tests, behind another test, and a block at
position 4 that is not reached. -/
def guardedTest : Routine Unit Unit where
  name := "guarded test"
  entry := 0
  blocks := #[
    some { statements := [()], condition := some (), targets := [1, 3], cases := none },
    some { statements := [], condition := some (), targets := [2, 3], cases := none },
    some { statements := [()], condition := none, targets := [3], cases := none },
    some { statements := [()], condition := none, targets := [], cases := none },
    some { statements := [()], condition := none, targets := [3], cases := none }]

/-- Its test is folded into the condition of a node, and only the last block is
left out. -/
theorem structured_partitions_guarded_test :
    ∃ tree, (guardedTest.structured id).2 = .ok tree ∧ tree.unreachable = [6] ∧
      tree.leaves = [2, 4, 5] ∧ tree.occurrences 4 = 1 ∧ tree.occurrences 3 = 0 ∧
      ∃ i node cond, (i, node) ∈ tree.walk ∧ node.cond = some cond ∧ 3 ∈ cond.vertices := by
  have ran : ((guardedTest.structured id).2.toOption.map fun tree =>
      (tree.unreachable, tree.leaves, tree.occurrences 4, tree.occurrences 3)) =
        some ([6], [2, 4, 5], 1, 0) := by decide +kernel
  cases isTree : (guardedTest.structured id).2 with
  | error cause =>
      rw [isTree] at ran
      cases ran
  | ok tree =>
      rw [isTree] at ran
      simp only [Except.toOption, Option.map_some, Option.some.injEq, Prod.mk.injEq] at ran
      obtain ⟨unreachable, leaves, single, folded⟩ := ran
      have reachable : guardedTest.IsReachable 3 :=
        ⟨by decide, (Digraph.Reaches.refl 2).edge (by decide +kernel)⟩
      obtain ⟨_, _, _, once, _⟩ := structured_partitions (by decide +kernel) id isTree
      refine ⟨tree, rfl, unreachable, leaves, single, folded, ?_⟩
      rcases once 3 reachable with one | ⟨_, tested⟩
      · rw [folded] at one
        cases one
      · exact tested

end Routine

end FlowRegions
