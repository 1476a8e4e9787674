import FlowRegions.Proofs.Routine.Building
import FlowRegions.Proofs.Structuring.References
import FlowRegions.Proofs.Structuring.Routines
import FlowRegions.Proofs.Tree.Outline

/-!
Contract: the text of a tree that structuring returns determines the tree.

No region is missing from such a tree and every jump leads somewhere, whatever graph the
run started from.  So two of them have the same text exactly when they have the same
outline, which holds all that their walks meet but the indices of regions and the
conditions of leaves and sequences.

Owns:
- `Tree.Returned`, the trees that structuring returns, and that their tables are closed;
- `Tree.outline`, and `Tree.render_eq_iff_outline_eq`.
-/

namespace FlowRegions

open FlowRegions.Digraph (root terminator)

/-! ## Outlines of trees -/

namespace Tree

def startOf (tree : Tree) (i : Nat) : Option Nat :=
  tree.table.firstVertex? tree.nodes.size i

def traits (tree : Tree) (node : Node) : Traits :=
  node.traits tree.startOf

def outline (tree : Tree) : Outline :=
  tree.table.outline tree.startOf tree.nodes.size tree.root

/-- The trees that structuring returns: those of a run from an accepted graph, also after
other runs, and those of routines. -/
inductive Returned : Tree → Prop where
  | run {α : Type} {config : Config} {input : Digraph α} {structuring : Structuring} {tree : Tree}
      (built : input.Built) (accepted : Structuring.ofGraph config input = .ok structuring)
      (count : Nat) (result : (structuring.afterRuns count).run.2.2 = .ok tree) : Returned tree
  | structured {σ ε : Type} {routine : Routine σ ε} {adjust : Config → Config} {tree : Tree}
      (result : (routine.structured adjust).2 = .ok tree) : Returned tree

end Tree

/-! ## Where runs end with a tree -/

namespace State

variable {config : Config} {start state : State} {tree : Tree}

theorem exists_entry_of_finish? (finished : state.finish? = some (.ok tree)) :
    ∃ entry, state.graph.entry? = some entry ∧ state.graph.branches entry = [] ∧
      tree = state.tree entry := by
  unfold finish? at finished
  split at finished
  · cases finished
  split at finished
  · cases finished
  rename_i entry isEntry
  split at finished
  · rename_i none
    exact ⟨entry, isEntry, List.isEmpty_iff.mp none,
      (Except.ok.inj (Option.some.inj finished)).symm⟩
  · cases finished

/-- A state whose root leads to itself only never has a tree. -/
theorem Unrooted.not_finished (unrooted : Unrooted state) : state.finish? ≠ some (.ok tree) := by
  intro finished
  obtain ⟨entry, isEntry, none, _⟩ := exists_entry_of_finish? finished
  have edge := List.mem_of_head? isEntry
  have isRoot := unrooted.nowhere entry edge
  subst isRoot
  have isBranch : root ∈ state.graph.branches root :=
    RegionGraph.mem_branches.mpr ⟨edge, by decide⟩
  rw [none] at isBranch
  cases isBranch

end State

namespace Structuring

variable {α : Type} {config : Config} {input : Digraph α} {structuring : Structuring}

/-- A run that comes to a tree comes to one with a closed table and a region at the top. -/
theorem closed_of_finished (built : input.Built)
    (accepted : Structuring.ofGraph config input = .ok structuring) {state : State}
    (reached : State.Reached config structuring.state state) {tree : Tree}
    (finished : state.finish? = some (.ok tree)) :
    tree.table.Closed tree.startOf ∧ (tree.table tree.root).isSome = true := by
  obtain ⟨entry, isEntry, _, rfl⟩ := State.exists_entry_of_finish? finished
  obtain ⟨_, nested⟩ := consistent_of_reached built accepted reached
  have isTable := State.table_tree state entry
  constructor
  · refine ⟨isTable ▸ nested, fun {i node} found r refers => ?_, fun {fuel i} there enough => ?_⟩
    · rw [isTable] at found ⊢
      exact isSome_of_reference built accepted reached found refers
    · rw [isTable] at there
      obtain ⟨node, found⟩ := Option.isSome_iff_exists.mp there
      have within := RegionGraph.lt_size_of_table found
      rw [Tree.startOf, isTable, State.size_tree]
      exact NodeTable.walk_congr _ NodeTable.firstVertex?_succ nested (fun _ _ => rfl) within
        enough
  · obtain ⟨_, ⟨shaped, _⟩ | ⟨unrooted, _⟩⟩ := start_cases built accepted
    · obtain ⟨e, isTop, _, live, _⟩ :=
        RegionGraph.WellFormed.entry?_eq (shaped.reached reached)
      rw [RegionGraph.entry?, ← state.alike_graph_reattach.successors_eq] at isTop
      cases Option.some.inj (isEntry.symm.trans isTop)
      rw [isTable]
      exact (Digraph.isLive_reattach state.graph entry).symm.trans live
    · exact absurd finished (unrooted.reached reached).1.not_finished

end Structuring

/-- A routine that is structured is valid. -/
theorem Routine.valid_of_structured {σ ε : Type} {routine : Routine σ ε}
    {adjust : Config → Config} {tree : Tree}
    (structured : (routine.structured adjust).2 = .ok tree) : routine.fault? = none := by
  cases fault : routine.fault? with
  | none => rfl
  | some found =>
      rw [Routine.structured, Routine.graph, fault] at structured
      cases structured

namespace Tree

variable {tree other : Tree}

/-- No region is missing from a tree that is returned, and there is one at its top. -/
theorem Returned.closed (returned : tree.Returned) :
    tree.table.Closed tree.startOf ∧ (tree.table tree.root).isSome = true := by
  have ofRun {α : Type} {config : Config} {input : Digraph α} {structuring : Structuring}
      (built : input.Built) (accepted : Structuring.ofGraph config input = .ok structuring)
      (count : Nat) (result : (structuring.afterRuns count).run.2.2 = .ok tree) :
      tree.table.Closed tree.startOf ∧ (tree.table tree.root).isSome = true := by
    obtain ⟨graph, _, isStart⟩ := Structuring.exists_graph_of_ofGraph accepted
    have sameConfig : structuring.config = config := by rw [isStart]
    obtain ⟨final, reached, finished⟩ :=
      structuring.exists_final_afterRuns (by rw [isStart]) count result
    exact Structuring.closed_of_finished built accepted (sameConfig ▸ reached) finished
  cases returned with
  | run built accepted count result => exact ofRun built accepted count result
  | structured result =>
      have valid := Routine.valid_of_structured result
      obtain ⟨start, accepted, ran⟩ := Routine.exists_run_of_structured valid result
      exact ofRun (Routine.built_flow valid) accepted 0 ran

/-- The text of a tree that is returned determines the tree: two of them have the same text
exactly when they have the same outline, in which every node is listed that a walk meets,
in the same order.  So they agree exactly when their outlines do, and what they leave out
and what they duplicate. -/
theorem render_eq_iff_outline_eq (returned : tree.Returned) (returned' : other.Returned) :
    (tree.render = other.render ↔ tree.outline = other.outline) ∧
    tree.outline.preorder = (tree.walk.map fun (_, node) => tree.traits node) ∧
    (tree.render = other.render →
      (tree.walk.map fun (_, node) => tree.traits node) =
        other.walk.map fun (_, node) => other.traits node) ∧
    (tree.agrees other = true ↔ tree.outline = other.outline ∧
      tree.unreachable = other.unreachable ∧ tree.duplicated = other.duplicated) := by
  obtain ⟨closed, isRegion⟩ := returned.closed
  obtain ⟨closed', isRegion'⟩ := returned'.closed
  have within {tree : Tree} (isRegion : (tree.table tree.root).isSome = true) :
      tree.root < tree.nodes.size := by
    by_contra beyond
    simp [table, Array.getElem?_eq_none (Nat.not_lt.mp beyond)] at isRegion
  have same : tree.render = other.render ↔ tree.outline = other.outline :=
    closed.render_eq_iff closed' isRegion isRegion' (within isRegion) (within isRegion')
  have preorder (tree : Tree) :
      tree.outline.preorder = tree.walk.map fun (_, node) => tree.traits node :=
    NodeTable.preorder_outline _ _ _ _
  refine ⟨same, preorder tree, fun sameText => ?_, ?_⟩
  · rw [← preorder, ← preorder, same.mp sameText]
  · rw [agrees, Bool.and_eq_true, Bool.and_eq_true, beq_iff_eq, beq_iff_eq, beq_iff_eq, same,
      and_assoc]

def leftFromSwitch (more : Array (Option (Block Unit Unit))) : Routine Unit Unit where
  name := "left from a switch"
  entry := 0
  blocks := #[
    some { statements := [()], condition := some (), targets := [1, 2], cases := none },
    some { statements := [()], condition := some (), targets := [2, 3], cases := none },
    some { statements := [()], condition := some (), targets := [1, 3, 0], cases := none },
    some { statements := [()], condition := none, targets := [], cases := none }] ++ more

theorem exists_ok_of_map {result : Except StructuringError Tree} {β : Type} {read : Tree → β}
    {value : β} (found : result.toOption.map read = some value) :
    ∃ tree, result = .ok tree ∧ read tree = value := by
  cases result with
  | error cause => cases found
  | ok tree => exact ⟨tree, rfl, Option.some.inj found⟩

/-- A block that nothing leads to moves the indices of regions.  The text and the outline
stay, and the trees differ in what they leave out. -/
theorem render_eq_iff_outline_eq_leftFromSwitch :
    ∃ tree other : Tree,
      ((leftFromSwitch #[]).structured (Routine.withLimits 100 0 0 true)).2 = .ok tree ∧
      ((leftFromSwitch #[some ⟨[], none, [], none⟩]).structured
        (Routine.withLimits 100 0 0 true)).2 = .ok other ∧
      tree.render = "(selfloop true (seq (if c2 2 (if !c3 3 (goto 5))) " ++
        "(switch 4 (case [0] (goto 3)) (case [1] 5) (case [2]))))" ∧
      tree.root ≠ other.root ∧ tree.outline = other.outline ∧ tree.agrees other = false := by
  have first : ((leftFromSwitch #[]).structured (Routine.withLimits 100 0 0 true)).2.toOption.map
      (fun tree => (tree.render, tree.root, tree.unreachable)) =
        some ("(selfloop true (seq (if c2 2 (if !c3 3 (goto 5))) " ++
          "(switch 4 (case [0] (goto 3)) (case [1] 5) (case [2]))))", 12, []) := by
    decide +kernel
  have second : ((leftFromSwitch #[some ⟨[], none, [], none⟩]).structured
      (Routine.withLimits 100 0 0 true)).2.toOption.map
      (fun tree => (tree.render, tree.root, tree.unreachable)) =
        some ("(selfloop true (seq (if c2 2 (if !c3 3 (goto 5))) " ++
          "(switch 4 (case [0] (goto 3)) (case [1] 5) (case [2]))))", 13, [6]) := by
    decide +kernel
  obtain ⟨tree, structured, isTree⟩ := exists_ok_of_map first
  obtain ⟨other, structured', isOther⟩ := exists_ok_of_map second
  simp only [Prod.mk.injEq] at isTree isOther
  obtain ⟨same, _, _, agree⟩ := render_eq_iff_outline_eq (.structured structured)
    (.structured structured')
  refine ⟨tree, other, structured, structured', isTree.1, ?_, ?_, ?_⟩
  · rw [isTree.2.1, isOther.2.1]
    decide
  · exact same.mp (isTree.1.trans isOther.1.symm)
  · rw [← Bool.not_eq_true, agree, isTree.2.2, isOther.2.2]
    exact fun both => nomatch both.2.1

end Tree

end FlowRegions
