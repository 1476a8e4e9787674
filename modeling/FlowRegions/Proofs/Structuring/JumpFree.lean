import FlowRegions.Proofs.Structuring.Contraction
import FlowRegions.Proofs.Structuring.Partition

/-!
Contract: a tree without jumps and copies proves that the flow was reducible.

Prunes and collapses are contractions, so heads of cycles behind them are heads of
cycles before.  A cut leaves a jump and a duplication leaves a copy; a composite
holds whatever its members hold of these, and nothing that is reached is ever left
out.  So a run whose tree holds neither has only contracted, down to a graph
without cycles.

Owns:
- `Node.detours` and `RegionGraph.detours`, the jumps and copies below a region;
- `State.Tracked`, with its step and run lemmas;
- `Routine.structured_jump_free_headed`.
-/

namespace FlowRegions

open FlowRegions.Digraph (root terminator)

def Node.detours (node : Node) : List Nat :=
  match node.shape with
  | .jump target => [target]
  | .tail body => [body]
  | _ => []

namespace RegionGraph

variable {config : Config} {labels : List Nat} {graph changed : RegionGraph}
  {collapse : Collapse} {v new : Nat}

/-! ## Jumps and copies below regions -/

def detours (graph : RegionGraph) (v : Nat) : List Nat :=
  graph.gather (fun _ => true) Node.detours v

theorem detours_eq (nested : graph.table.Nested) (v : Nat) : graph.detours v =
    graph.held Node.detours v ++ (graph.held Node.children v).flatMap graph.detours :=
  gather_eq nested fun _ _ => rfl

theorem Extends.detours_eq (growth : Extends graph changed) (nested : graph.table.Nested)
    (within : v < graph.size) : changed.detours v = graph.detours v :=
  growth.gather_eq nested within

theorem detours_ne_nil {node : Node} (nested : graph.table.Nested)
    (found : graph.table v = some node) (own : node.detours ≠ []) : graph.detours v ≠ [] := by
  rw [detours_eq nested, held_eq found]
  exact List.append_ne_nil_of_left_ne_nil own _

/-- A composite holds the jumps and copies of its members. -/
theorem Made.detours_new_ne_nil {whole opened folded : List Nat} (wellFormed : graph.WellFormed)
    (fits : graph.Fits collapse) (collapsed : Collapsed graph collapse new changed)
    (made : Made config labels graph collapse whole opened folded)
    (member : v ∈ collapse.members) (detours : graph.detours v ≠ []) :
    changed.detours new ≠ [] := by
  suffices found : ∃ r ∈ graph.ingredients collapse, graph.detours r ≠ [] by
    obtain ⟨r, isPart, below⟩ := found
    rw [RegionGraph.detours,
      collapsed.gather_new wellFormed fits (fun _ _ => rfl) (fun _ => rfl) made.original]
    intro none
    exact below (List.flatMap_eq_nil_iff.mp (List.append_eq_nil_iff.mp none).2 r isPart)
  have isPart {r : Nat} := (made.ingredients.mem_iff (a := r)).trans List.mem_append
  rw [made.members.mem_iff, List.mem_append, List.mem_append] at member
  rcases member with (isWhole | isOpened) | isFolded
  · exact ⟨v, isPart.mpr (.inl isWhole), detours⟩
  · -- An opened member is neither, so one of its parts holds it.
    obtain ⟨node, found, kind⟩ := made.opens v isOpened
    have plain : graph.held Node.detours v = [] := by
      rw [held_eq found]
      obtain ⟨shape, cond⟩ := node
      cases shape with
      | leaf | seq => rfl
      | _ => rcases kind with isKind | isKind <;> cases isKind
    rw [detours_eq wellFormed.nested, plain, List.nil_append, Ne,
      List.flatMap_eq_nil_iff] at detours
    push Not at detours
    obtain ⟨r, isChild, below⟩ := detours
    exact ⟨r, isPart.mpr (.inr (List.mem_flatMap.mpr ⟨v, isOpened, isChild⟩)), below⟩
  · obtain ⟨_, _, _, _, _, _, foldable, _⟩ := made.folds v isFolded
    obtain ⟨cond, found⟩ := foldable.leaf
    rw [detours_eq wellFormed.nested, held_eq found, held_eq found] at detours
    exact absurd rfl detours

/-! ## Prunes as contractions -/

/-- Leaving out what is not reached puts nothing together. -/
theorem Pruned.contracts {regions : List Nat} (pruned : Pruned graph regions changed)
    (unreached : ∀ r ∈ regions, ¬ graph.Reaches .forward root r) :
    Digraph.Contracts graph changed id id where
  owner_root := rfl
  place_root := rfl
  owner_owner _ := rfl
  place_inj _ _ same := same
  inner _ _ := .inl rfl
  crosses := by
    intro u t reaches edge _
    show t ∈ changed.successors u
    rw [pruned.successors_eq, if_neg fun stray => unreached u stray reaches]
    exact List.mem_filter.mpr ⟨edge, decide_eq_true fun stray =>
      unreached t stray (reaches.edge edge)⟩
  lifts := fun _ _ edge _ =>
    ⟨_, _, rfl, rfl, (pruned.successors_cases edge).2.2, .refl⟩
  within := by
    intro path h cycle single
    have ⟨_, start, _, walk, _⟩ := cycle
    refine ⟨start, walk.start_mem, fun m onPath => ?_⟩
    rw [show start = h from (single start walk.start_mem).2,
      show m = h from (single m onPath).2]
    exact .refl h

end RegionGraph

namespace State

variable {config : Config} {targets : Nat → List Nat} {start : RegionGraph} {state next : State}

/-! ## Runs -/

/-- What a state says about the graph a run started from: heads of its cycles are heads
of cycles there, or a jump or a copy is left that nothing takes away. -/
inductive Tracked (start : RegionGraph) (state : State) : Prop where
  | straight (reflects : state.graph.HeadedCycles → start.HeadedCycles)
  | marked {v : Nat} (all : state.graph.AllReached) (live : state.graph.isLive v = true)
      (detours : state.graph.detours v ≠ [])

/-- A step contracts the graph, or leaves a mark. -/
theorem Tracked.step (wellFormed : state.graph.WellFormed) (tracked : Tracked start state)
    (steps : Steps config state next) : Tracked start next := by
  obtain ⟨_, action, chosen, rfl⟩ := steps
  have legal := legal_of_choose wellFormed chosen
  have after := legal.keeps_wellFormed wellFormed
  have allAfter := legal.allReached wellFormed
  cases legal with
  | @prune regions someStray strayIff =>
      cases tracked with
      | straight reflects =>
          have contracts := (RegionGraph.pruned_isolateAll wellFormed.consistent
            regions).contracts fun r isStray => ((strayIff r).mp isStray).2
          exact .straight fun headed => reflects (contracts.headedCycles_of_headedCycles headed)
      | marked all live detours =>
          obtain ⟨r, isStray⟩ := List.exists_mem_of_ne_nil _ someStray
          obtain ⟨rLive, unreached⟩ := (strayIff r).mp isStray
          exact absurd (all r rLive) unreached
  | @collapse v collapse all live found =>
      have fits := found.fits wellFormed live
      have collapsed := RegionGraph.collapsed_collapse wellFormed fits
      cases tracked with
      | straight reflects =>
          have contracts := collapsed.contracts fits wellFormed all fun m member =>
            found.absorbed_or_unentered wellFormed.consistent fits.live member
          exact .straight fun headed => reflects (contracts.headedCycles_of_headedCycles headed)
      | @marked u _ uLive detours =>
          by_cases member : u ∈ collapse.members
          · obtain ⟨whole, opened, folded, made⟩ := found.made wellFormed live
            exact .marked allAfter ((collapsed.live_iff _).mpr (.inl rfl))
              (made.detours_new_ne_nil wellFormed fits collapsed member detours)
          · refine .marked allAfter ((collapsed.live_iff u).mpr (.inr ⟨uLive, member⟩)) ?_
            have same := collapsed.growth.detours_eq wellFormed.nested
              (Digraph.lt_size_of_isLive uLive)
            exact same.trans_ne detours
  | duplicate _ _ live entering =>
      have copied := RegionGraph.copied_giveCopy wellFormed.consistent
        (Digraph.lt_size_of_isLive live) entering
      refine .marked allAfter ((copied.live_iff _).mpr (.inr ⟨Nat.le_refl _, copied.size_lt⟩)) ?_
      exact RegionGraph.detours_ne_nil after.nested copied.table_copy (List.cons_ne_nil _ _)
  | @cut source target _ _ _ _ _ _ _ _ =>
      have severed := RegionGraph.severed_redirect wellFormed.consistent source target
      refine .marked allAfter ((severed.live_iff _).mpr (.inl rfl)) ?_
      exact RegionGraph.detours_ne_nil after.nested severed.table_new (List.cons_ne_nil _ _)

theorem Tracked.reached (proper : Proper config targets state) (tracked : Tracked start state)
    (reached : Reached config state next) : Tracked start next := by
  induction reached with
  | refl => exact tracked
  | tail before steps inductionHypothesis =>
      exact inductionHypothesis.step (proper.reached before).wellFormed steps

/-- Where a run ends with a tree, no cycle is left. -/
theorem Proper.headedCycles_of_finish? (proper : Proper config targets state) {entry : Nat}
    (finished : state.finish? = some (.ok (state.tree entry))) : state.graph.HeadedCycles := by
  have wellFormed := proper.wellFormed
  obtain ⟨_, only⟩ := proper.isLive_iff_of_finish? finished
  obtain ⟨e, isTree, _, _, noBranch⟩ := proper.finish?_eq finished
  have same : entry = e := congrArg Tree.root (Except.ok.inj isTree)
  subst same
  intro path cycle ⟨v, onPath, _⟩
  -- Every vertex of a cycle is the one region left, which leads to none.
  have isEntry {x : Nat} (onPath : x ∈ path) : x = entry := by
    obtain ⟨_, y, _, _, back⟩ := cycle.rotate onPath
    refine (only x).mp ((wellFormed.ends back).2.resolve_left ?_)
    rintro rfl
    exact cycle.successors_ne_nil onPath wellFormed.successors_terminator
  obtain ⟨_, y, turned, walk, back⟩ := cycle.rotate onPath
  rw [isEntry onPath, isEntry (turned.mem_iff.mp walk.end_mem)] at back
  have branch : entry ∈ state.graph.branches entry :=
    RegionGraph.mem_branches.mpr
      ⟨back, wellFormed.ne_terminator_of_isLive ((only entry).mpr rfl)⟩
  rw [noBranch] at branch
  cases branch

/-- A tree that is reducible holds no jumps and no copies. -/
theorem detours_eq_nil_of_isReducible {entry : Nat}
    (plain : (state.tree entry).isReducible = true) : state.graph.detours entry = [] := by
  rw [Tree.isReducible, Tree.walk, walkWhere_tree, List.all_eq_true] at plain
  refine List.flatMap_eq_nil_iff.mpr fun place met => ?_
  obtain ⟨i, shape, cond⟩ := place
  have isPlain := plain _ met
  cases shape with
  | jump | tail => cases isPlain
  | _ => rfl

end State

namespace Routine

variable {σ ε : Type} {routine : Routine σ ε}

/-- A tree without jumps proves reducibility: whatever the configuration, when the tree
of a valid routine holds neither jumps nor copies, every cycle of its control flow that
the root reaches has a vertex that dominates all of it. -/
theorem structured_jump_free_headed (valid : routine.fault? = none) (adjust : Config → Config)
    {tree : Tree} (structured : (routine.structured adjust).2 = .ok tree)
    (plain : tree.isReducible = true) :
    ∀ path, routine.flow.Cycle path → (∃ v ∈ path, routine.flow.Reaches .forward root v) →
      ∃ head ∈ path, ∀ v ∈ path, routine.flow.Dominates .forward head v := by
  have sound := sound_flow valid
  obtain ⟨start, accepted, result⟩ := exists_run_of_structured valid structured
  obtain ⟨final, entry, reached, finished, rfl⟩ := Structuring.exists_final sound accepted result
  obtain ⟨_, _, _, _, ⟨_, entries, taken⟩, proper⟩ := Structuring.proper_ofGraph sound accepted
  have properFinal := proper.reached reached
  have startHeaded : start.state.graph.HeadedCycles := by
    cases State.Tracked.reached proper (.straight id) reached with
    | straight reflects => exact reflects (properFinal.headedCycles_of_finish? finished)
    | @marked v _ live detours =>
        rw [((properFinal.isLive_iff_of_finish? finished).2 v).mp live] at detours
        exact absurd (State.detours_eq_nil_of_isReducible plain) detours
  have flowHeaded : routine.flow.HeadedCycles := by
    refine startHeaded.of_edges fun edge _ => (taken.mem_successors_iff entries).mpr ⟨?_, edge⟩
    rintro rfl
    rw [successors_flow valid] at edge
    cases edge
  exact flowHeaded

def guardedLoop : Routine Unit Unit where
  name := "guarded loop"
  entry := 0
  blocks := #[
    some { statements := [()], condition := none, targets := [1], cases := none },
    some { statements := [()], condition := some (), targets := [2, 3], cases := none },
    some { statements := [()], condition := none, targets := [1], cases := none },
    some { statements := [()], condition := none, targets := [], cases := none }]

/-- Its tree holds a loop and no jump, and its cycle has a head. -/
theorem structured_jump_free_headed_guarded_loop :
    ∃ tree, (guardedLoop.structured id).2 = .ok tree ∧ tree.isReducible = true ∧
      guardedLoop.flow.Cycle [3, 4] ∧
      ∃ head ∈ [3, 4], ∀ v ∈ [3, 4], guardedLoop.flow.Dominates .forward head v := by
  have ran : ((guardedLoop.structured id).2.toOption.map Tree.isReducible) = some true := by
    decide +kernel
  have cycle : guardedLoop.flow.Cycle [3, 4] :=
    ⟨by decide, 3, 4, .step (by decide +kernel) (.stay 4), by decide +kernel⟩
  have reached : guardedLoop.flow.Reaches .forward root 3 :=
    ((Digraph.Reaches.refl root).edge (w := 2) (by decide +kernel)).edge (by decide +kernel)
  cases isTree : (guardedLoop.structured id).2 with
  | error cause =>
      rw [isTree] at ran
      cases ran
  | ok tree =>
      rw [isTree] at ran
      have plain : tree.isReducible = true := Option.some.inj ran
      exact ⟨tree, rfl, plain, cycle, structured_jump_free_headed (by decide +kernel) id isTree
        plain [3, 4] cycle ⟨3, by simp, reached⟩⟩

end Routine

end FlowRegions
