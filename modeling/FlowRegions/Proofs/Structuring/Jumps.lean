import FlowRegions.Proofs.Execution.Structured
import FlowRegions.Proofs.Structuring.Partition
import FlowRegions.Proofs.Structuring.Rootless

/-!
Contract: jumps of region graphs and of trees.

A jump belongs to the one region whose edges were cut: it leads nowhere in the
graph, no other region leads to it, and neither the entry, nor the target of a
cut, nor what is duplicated is a jump.  In the tree a run comes to, every jump
lands on a leaf: its label is never folded away.

Owns:
- `RegionGraph.PrivateSink` and `Structuring.jumps_private_sinks`, for every
  state of a run;
- `Routine.structured_jumps_land`, for every tree of a routine.
-/

namespace FlowRegions

open FlowRegions.Digraph (root terminator)

/-! ## Jumps while structuring -/

namespace RegionGraph

variable {graph : RegionGraph} {j : Nat}

/-- A vertex that leads nowhere and is entered from one live region only. -/
structure PrivateSink (graph : RegionGraph) (j : Nat) : Prop where
  sink : graph.successors j = []
  owner : ∃ p, graph.entrants j = [p] ∧ graph.isLive p = true

/-- A jump that is reached is a private sink. -/
theorem WellFormed.privateSink (wellFormed : graph.WellFormed) (isJump : graph.isJump j = true)
    (reaches : graph.Reaches .forward root j) : graph.PrivateSink j := by
  refine ⟨wellFormed.jump_sink isJump, ?_⟩
  obtain ⟨e, fromRoot, _, entryNotJump⟩ := wellFormed.entry
  have notRoot : j ≠ root := by
    have real := wellFormed.two_le_of_isJump isJump
    rintro rfl
    cases real
  rw [Digraph.reaches_iff] at reaches
  cases reaches with
  | refl => exact absurd rfl notRoot
  | @tail p _ before edge =>
      change j ∈ graph.successors p at edge
      refine ⟨p, (eq_singleton_iff (nodup_entrants graph j)).mpr ⟨?_, fun q isEntrant => ?_⟩, ?_⟩
      · exact (mem_entrants wellFormed.consistent).mpr edge
      · have other := (mem_entrants wellFormed.consistent).mp isEntrant
        exact wellFormed.jump_entrant isJump other edge
      · refine (wellFormed.ends edge).1.resolve_left ?_
        -- The root leads to its entry only, which is no jump.
        rintro rfl
        rw [fromRoot, List.mem_singleton] at edge
        rw [edge, entryNotJump] at isJump
        cases isJump

end RegionGraph

namespace State

variable {config : Config} {state : State}

/-- A cut leaves a live region, and does not lead to a jump. -/
theorem cut_of_choose (wellFormed : state.graph.WellFormed) {cut : Cut}
    (chosen : state.choose config = some (.cut cut)) :
    state.graph.isLive cut.source = true ∧ state.graph.isJump cut.target = false := by
  cases legal_of_choose wellFormed chosen with
  | cut all live edge different entering ahead =>
      exact ⟨live, wellFormed.not_isJump_of_entrants entering
        (RegionGraph.mem_exits.mp edge).1 different⟩

/-- What is duplicated is no jump. -/
theorem not_isJump_of_duplicate (wellFormed : state.graph.WellFormed) {region : Nat}
    {outside : List Nat} (chosen : state.choose config = some (.duplicate region outside)) :
    state.graph.isJump region = false := by
  cases legal_of_choose wellFormed chosen with
  | duplicate all few live entering back inside away around isOutside ahead =>
      exact wellFormed.not_isJump_of_entrants back (entering _ isOutside)
        fun same => inside (same ▸ isOutside)

end State

namespace Structuring

variable {α : Type} {config : Config} {input : Digraph α} {structuring : Structuring}

/-- Jumps are live only behind the first step of a run, where everything live is
reached. -/
theorem reaches_of_isJump (sound : RegionGraph.Sound input)
    (accepted : Structuring.ofGraph config input = .ok structuring) {state : State}
    (reached : State.Reached config structuring.state state) {j : Nat}
    (isJump : state.graph.isJump j = true) (live : state.graph.isLive j = true) :
    state.graph.Reaches .forward root j := by
  rcases reached.cases_head with rfl | ⟨next, first, behind⟩
  · obtain ⟨_, _, _, _, ⟨_, _, taken⟩, _⟩ := proper_ofGraph sound accepted
    rw [taken.not_isJump] at isJump
    cases isJump
  · exact (sifted_of_steps sound accepted first behind).all j live

/-- Jumps are private sinks.  In every state of a run from an accepted graph whose
edges join vertices that are not detached, a live jump leads nowhere and has one
distinct predecessor, a live region; no edge to a jump is cut, nor an edge that
leaves the root; and neither the entry nor what is duplicated is a jump. -/
theorem jumps_private_sinks (built : input.Built)
    (attached : ∀ {u v}, v ∈ input.successors u →
      input.isDetached u = false ∧ input.isDetached v = false)
    (accepted : Structuring.ofGraph config input = .ok structuring)
    {state : State} (reached : State.Reached config structuring.state state) :
    (∀ j, state.graph.isJump j = true → state.graph.isLive j = true →
      state.graph.PrivateSink j) ∧
    (∀ cut, state.choose config = some (.cut cut) →
      state.graph.isJump cut.target = false ∧ cut.source ≠ root) ∧
    (∀ entry, state.graph.entry? = some entry → state.graph.isJump entry = false) ∧
    ∀ region outside, state.choose config = some (.duplicate region outside) →
      state.graph.isJump region = false := by
  rcases cases_ofGraph ⟨built.consistent, attached⟩ accepted with
    sound | ⟨rootless, entry, taken⟩
  · obtain ⟨_, _, _, _, _, proper⟩ := proper_ofGraph sound accepted
    have wellFormed := (proper.reached reached).wellFormed
    refine ⟨fun j isJump live => ?_, fun cut chosen => ?_, fun entry isEntry => ?_,
      fun region outside chosen => State.not_isJump_of_duplicate wellFormed chosen⟩
    · exact wellFormed.privateSink isJump (reaches_of_isJump sound accepted reached isJump live)
    · obtain ⟨live, notJump⟩ := State.cut_of_choose wellFormed chosen
      exact ⟨notJump, wellFormed.ne_root_of_isLive live⟩
    · obtain ⟨e, isEntry', _, _, notJump⟩ := wellFormed.entry?_eq
      rw [isEntry'] at isEntry
      exact Option.some.inj isEntry ▸ notJump
  · -- A rootless run prunes and does nothing else.
    obtain ⟨here, isStart⟩ := rootless.reached reached
    refine ⟨fun j isJump live => ?_, fun cut chosen => ?_, fun entry isEntry => ?_,
      fun region outside chosen => ?_⟩
    · rcases isStart with rfl | none
      · rw [taken.not_isJump] at isJump
        cases isJump
      · rw [none j] at live
        cases live
    · cases here.prunes_of_choose chosen
    · rw [RegionGraph.entry?, here.around] at isEntry
      rw [← Option.some.inj isEntry, ← Bool.not_eq_true, RegionGraph.isJump_iff]
      rintro ⟨_, _, found⟩
      have real := ((RegionGraph.table_isSome_iff here.consistent).mp (by rw [found]; rfl)).1
      cases real
    · cases here.prunes_of_choose chosen

def twoExits : Digraph Unit :=
  Digraph.ofEdges 4 [(0, 2), (2, 3), (2, 5), (3, 4), (3, 5), (4, 2), (5, 1)]

/-- The exit that its header does not take is cut first, into a jump that only the
source of the cut leads to. -/
theorem jumps_private_sinks_two_exits :
    ∃ structuring next, Structuring.ofGraph {} twoExits = .ok structuring ∧
      State.Steps {} structuring.state next ∧ next.graph.isJump 6 = true ∧
      next.graph.isLive 6 = true ∧ next.graph.entrants 6 = [3] ∧ next.graph.PrivateSink 6 := by
  have built : twoExits.Built := Digraph.built_ofEdges (by decide)
  have first : ((Structuring.ofGraph {} twoExits).toOption.bind fun structuring =>
      structuring.state.choose {}) = some (.cut ⟨3, 5, .loopExit⟩) := by decide +kernel
  have opened : ((Structuring.ofGraph {} twoExits).toOption.bind fun structuring =>
      structuring.state.finish?.map fun _ => ()) = none := by decide +kernel
  have after : ((Structuring.ofGraph {} twoExits).toOption.map fun structuring =>
      let next := (structuring.state.perform (.cut ⟨3, 5, .loopExit⟩)).1.graph
      (next.isJump 6, next.isLive 6, next.entrants 6)) = some (true, true, [3]) := by
    decide +kernel
  cases accepted : Structuring.ofGraph {} twoExits with
  | error rejected =>
      rw [accepted] at first
      cases first
  | ok structuring =>
      rw [accepted] at first opened after
      have steps : State.Steps {} structuring.state
          (structuring.state.perform (.cut ⟨3, 5, .loopExit⟩)).1 :=
        ⟨Option.map_eq_none_iff.mp opened, _, first, rfl⟩
      simp only [Except.toOption, Option.map_some, Option.some.injEq, Prod.mk.injEq] at after
      obtain ⟨isJump, live, owner⟩ := after
      obtain ⟨sinks, _⟩ := jumps_private_sinks built
        (RegionGraph.attached_of_lt (by decide +kernel)) accepted (.single steps)
      exact ⟨structuring, _, rfl, steps, isJump, live, owner, sinks 6 isJump live⟩

end Structuring

/-! ## Jumps of a tree -/

namespace NodeTable

/-- A walk meets regions with their nodes. -/
theorem table_of_mem_walk {table : NodeTable} {enter : Node → Bool} {fuel i r : Nat}
    {node : Node} (met : (r, node) ∈ table.walk enter fuel i) : table r = some node := by
  induction fuel generalizing i with
  | zero => cases met
  | succ fuel inductionHypothesis =>
      rw [walk] at met
      split at met
      · cases met
      · rename_i top found
        rcases List.mem_cons.mp met with same | below
        · cases same
          exact found
        · split at below
          · obtain ⟨child, _, met⟩ := List.mem_flatMap.mp below
            exact inductionHypothesis met
          · cases below

end NodeTable

namespace State

/-- In the tree of a finished state every jump lands on a leaf. -/
theorem Traceable.exists_leaf_of_jump {config : Config} {targets : Nat → List Nat}
    {start entry : Nat} {state : State} (traceable : Traceable config targets start state)
    (finished : state.finish? = some (.ok (state.tree entry))) {i target : Nat}
    {cond : Option Cond} (isJump : state.graph.table i = some ⟨.jump target, cond⟩) :
    ∃ vertex, state.graph.firstVertex? target = some vertex ∧
      vertex ∈ (state.tree entry).leaves := by
  obtain ⟨vertex, isLabel, first⟩ := traceable.labelled.jumps isJump
  obtain ⟨v, live, isLeaf⟩ := traceable.labelled.held vertex isLabel
  -- The entry is all that is live, so it holds every label.
  obtain ⟨_, only⟩ := traceable.proper.isLive_iff_of_finish? finished
  rw [(only v).mp live, ← leaves_tree] at isLeaf
  exact ⟨vertex, first, isLeaf⟩

end State

namespace Routine

variable {σ ε : Type} {routine : Routine σ ε}

/-- Jumps do not dangle: whatever the configuration, every jump of the tree of a
valid routine, copies included, leads to a region that starts at a vertex that is a
leaf of the tree. -/
theorem structured_jumps_land (valid : routine.fault? = none) (adjust : Config → Config)
    {tree : Tree} (structured : (routine.structured adjust).2 = .ok tree)
    {i target : Nat} {node : Node} (met : (i, node) ∈ tree.walk)
    (isJump : node.shape = .jump target) :
    ∃ vertex region leaf, tree.table.firstVertex? tree.nodes.size target = some vertex ∧
      (region, leaf) ∈ tree.walk ∧ leaf.shape = .leaf vertex := by
  have sound := sound_flow valid
  obtain ⟨start, accepted, result⟩ := exists_run_of_structured valid structured
  obtain ⟨final, entry, reached, finished, rfl⟩ :=
    Structuring.exists_final sound accepted result
  obtain ⟨_, _, traceable⟩ := Structuring.traceable_ofGraph sound accepted
  have found := NodeTable.table_of_mem_walk met
  rw [State.table_tree] at found
  obtain ⟨shape, cond⟩ := node
  cases isJump
  obtain ⟨vertex, first, isLeaf⟩ := (traceable.reached reached).exists_leaf_of_jump finished found
  obtain ⟨⟨region, leaf⟩, metLeaf, isVertex⟩ := List.mem_filterMap.mp isLeaf
  refine ⟨vertex, region, leaf, ?_, metLeaf, ?_⟩
  · rw [State.table_tree, State.size_tree]
    exact first
  · change leaf.leafVertex? = some vertex at isVertex
    unfold Node.leafVertex? at isVertex
    split at isVertex
    · rename_i isShape
      rw [isShape, Option.some.inj isVertex]
    · cases isVertex

/-- A loop with two entries, whose latch may also go to the top. -/
def copiedJump : Routine Unit Unit where
  name := "copied jump"
  entry := 0
  blocks := #[
    some { statements := [()], condition := some (), targets := [1, 4], cases := none },
    some { statements := [()], condition := some (), targets := [3, 2], cases := none },
    some { statements := [()], condition := some (), targets := [1, 4], cases := none },
    some { statements := [()], condition := none, targets := [], cases := none },
    some { statements := [()], condition := none, targets := [2], cases := none }]

/-- Its tree holds a jump inside a copy, and the jump lands. -/
theorem structured_jumps_land_copied_jump :
    ∃ tree i node target, (copiedJump.structured id).2 = .ok tree ∧ (i, node) ∈ tree.walk ∧
      node.shape = .jump target ∧ tree.duplicated ≠ [] ∧
      ∃ vertex region leaf, tree.table.firstVertex? tree.nodes.size target = some vertex ∧
        (region, leaf) ∈ tree.walk ∧ leaf.shape = .leaf vertex := by
  have valid : copiedJump.fault? = none := by decide
  have copied : ((copiedJump.structured id).2.toOption.map fun tree =>
      (tree.duplicated, tree.walk.find? fun met => met.2.isJump)) =
        some ([9], some (8, ⟨.jump 7, none⟩)) := by
    decide +kernel
  cases structured : (copiedJump.structured id).2 with
  | error fault =>
      rw [structured] at copied
      cases copied
  | ok tree =>
      rw [structured] at copied
      simp only [Except.toOption, Option.map_some, Option.some.injEq, Prod.mk.injEq] at copied
      obtain ⟨duplicated, found⟩ := copied
      have met := List.mem_of_find?_eq_some found
      refine ⟨tree, 8, ⟨.jump 7, none⟩, 7, rfl, met, rfl, ?_, ?_⟩
      · rw [duplicated]
        exact List.cons_ne_nil _ _
      · exact structured_jumps_land valid id structured met rfl

end Routine

end FlowRegions
