import FlowRegions.Proofs.Structuring.Contents
import FlowRegions.Proofs.Structuring.Endings
import FlowRegions.Proofs.Structuring.Quotient
import FlowRegions.Proofs.Structuring.Reducible

/-!
Contract: what the rules take for granted about the region graph, and that every
node that decides something knows what it tests.

A rule that finds two branches asks for the condition of the region they leave and
does not check that there is one.  There is, because only a region that ends in the
branch of an input vertex has several branches: a composite that decides has one
way out.

Owns:
- `Node.Decided` and `RegionGraph.AllDecided`, with their step and run lemmas;
- `RegionGraph.Orderly`, what holds of the edges in every state of a run;
- `Structuring.run_orderly`, both for every run from an accepted graph.
-/

namespace FlowRegions

open FlowRegions.Digraph (root terminator)

/-! ## Conditions of nodes -/

namespace Kind

/-- The kinds of node that choose between going on in two ways. -/
def isConditional : Kind → Bool
  | ifThen | ifElse | whileLoop | doWhile | forLoop => true
  | _ => false

end Kind

namespace Node

/-- A node that chooses has a condition, and conditions test only what `isTest`
admits. -/
structure Decided (isTest : Nat → Prop) (node : Node) : Prop where
  conditional : node.kind.isConditional = true → node.cond.isSome = true
  tests : ∀ v ∈ node.tested, isTest v

variable {isTest isTest' : Nat → Prop} {node : Node}

theorem Decided.mono (decided : node.Decided isTest) (admits : ∀ v, isTest v → isTest' v) :
    node.Decided isTest' :=
  ⟨decided.conditional, fun v tested => admits v (decided.tests v tested)⟩

/-- A node without condition that does not choose. -/
theorem decided_of_unconditional (unconditional : node.kind.isConditional = false)
    (noCond : node.cond = none) : node.Decided isTest := by
  refine ⟨fun conditional => absurd conditional (by simp [unconditional]), fun v tested => ?_⟩
  obtain ⟨cond, isCond, _⟩ := mem_tested.mp tested
  rw [noCond] at isCond
  cases isCond

theorem decided_of_cond {cond : Cond} (isCond : node.cond = some cond)
    (tests : ∀ v ∈ cond.vertices, isTest v) : node.Decided isTest := by
  refine ⟨fun _ => by rw [isCond]; rfl, fun v tested => ?_⟩
  obtain ⟨same, isSame, member⟩ := mem_tested.mp tested
  rw [isCond] at isSame
  cases isSame
  exact tests v member

end Node

/-- A condition that leads somewhere tests vertices with two targets. -/
theorem Cond.Leads.two_targets {targets : Nat → List Nat} {cond : Cond} {whenTrue whenFalse : Nat}
    (leads : cond.Leads targets whenTrue whenFalse) :
    ∀ v ∈ cond.vertices, (targets v).length = 2 := by
  induction leads with
  | test branch =>
      intro v member
      rw [List.mem_singleton.mp member, branch]
      rfl
  | not _ inductionHypothesis => exact inductionHypothesis
  | and _ _ leftHypothesis rightHypothesis | or _ _ leftHypothesis rightHypothesis =>
      intro v member
      rcases List.mem_append.mp member with inLeft | inRight
      · exact leftHypothesis v inLeft
      · exact rightHypothesis v inRight

namespace RegionGraph

variable {config : Config} {labels : List Nat} {targets : Nat → List Nat}
  {graph changed : RegionGraph} {collapse : Collapse} {v new : Nat}

def AllDecided (targets : Nat → List Nat) (graph : RegionGraph) : Prop :=
  ∀ i node, graph.table i = some node → node.Decided fun v => (targets v).length = 2

theorem TwoWay.decided {taken other : Nat} {node : Node} {cond : Option Cond}
    (twoWay : TwoWay config graph v taken other cond) (ending : Ending config targets graph v)
    (isCond : node.cond = cond) : node.Decided fun v => (targets v).length = 2 := by
  obtain ⟨condition, _, _, isSome, _, _, _, leads⟩ := twoWay.leads ending
  exact Node.decided_of_cond (isCond.trans isSome) leads.two_targets

/-- What a rule makes is decided by the branch it found. -/
theorem Matches.decided (wellFormed : graph.WellFormed)
    (faithful : Faithful config targets graph) (live : graph.isLive v = true)
    (found : Matches config labels graph v collapse) :
    collapse.node.Decided fun v => (targets v).length = 2 := by
  cases found with
  | forever | sequence | switch => exact Node.decided_of_unconditional rfl rfl
  | selfLoop twoWay => exact twoWay.decided (faithful.ending live) rfl
  | whileLoop loop => exact loop.twoWay.decided (faithful.ending live) rfl
  | forLoop loop => exact loop.twoWay.decided (faithful.ending live) rfl
  | ifThen twoWay => exact twoWay.decided (faithful.ending live) rfl
  | doWhile exits _ _ twoWay =>
      have latchLive := wellFormed.isLive_of_mem_exits (exits ▸ List.mem_singleton_self _)
      exact twoWay.decided (faithful.ending latchLive) rfl
  | ifElse _ branches =>
      obtain ⟨condition, _, _, isCond, _, _, _, leads⟩ := (faithful.ending live).leads branches
      exact Node.decided_of_cond isCond leads.two_targets
  | compound foldable branch =>
      obtain ⟨_, _, _, _, leads, _⟩ := foldable.leads wellFormed faithful live branch
      exact Node.decided_of_cond rfl leads.two_targets

end RegionGraph

/-- A legal step makes decided nodes only. -/
theorem State.Legal.keeps_allDecided {config : Config} {targets : Nat → List Nat} {state : State}
    {action : Action} (wellFormed : state.graph.WellFormed)
    (faithful : RegionGraph.Faithful config targets state.graph)
    (decided : state.graph.AllDecided targets) (legal : Legal config state action) :
    (state.perform action).1.graph.AllDecided targets := by
  intro i node found
  cases legal with
  | @prune regions =>
      have pruned := RegionGraph.pruned_isolateAll wellFormed.consistent regions
      exact decided i node ((pruned.table_eq i).symm.trans found)
  | collapse _ live isMatch =>
      have fits := isMatch.fits wellFormed live
      have collapsed := RegionGraph.collapsed_collapse wellFormed fits
      rcases collapsed.table_cases found with ⟨_, old⟩ | ⟨_, _, isPart⟩ | ⟨_, rfl⟩
      · exact decided i node old
      · -- The part of a counting loop that is added beside it is a bare sequence.
        obtain ⟨nodes, rfl, _⟩ := fits.part_shape _ isPart
        exact Node.decided_of_unconditional rfl rfl
      · exact isMatch.decided wellFormed faithful live
  | duplicate _ _ live entering =>
      have copied := RegionGraph.copied_giveCopy wellFormed.consistent
        (Digraph.lt_size_of_isLive live) entering
      rcases copied.table_cases found with ⟨_, old⟩ | ⟨_, rfl⟩ | ⟨_, _, _, _, _, rfl⟩
      · exact decided i node old
      · exact Node.decided_of_unconditional rfl rfl
      · exact Node.decided_of_unconditional rfl rfl
  | @cut source target =>
      have severed := RegionGraph.severed_redirect wellFormed.consistent source target
      rcases severed.table_cases found with ⟨_, old⟩ | ⟨_, rfl⟩
      · exact decided i node old
      · exact Node.decided_of_unconditional rfl rfl

theorem State.Proper.allDecided {config : Config} {targets : Nat → List Nat}
    {start state : State} (proper : Proper config targets start)
    (decided : start.graph.AllDecided targets) (reached : Reached config start state) :
    state.graph.AllDecided targets := by
  induction reached with
  | refl => exact decided
  | tail before steps inductionHypothesis =>
      obtain ⟨_, action, chosen, rfl⟩ := steps
      have here := proper.reached before
      exact (legal_of_choose here.wellFormed chosen).keeps_allDecided here.wellFormed here.faithful
        inductionHypothesis

/-! ## Regions with several branches -/

namespace RegionGraph

variable {config : Config} {targets : Nat → List Nat} {graph : RegionGraph} {v : Nat}

/-- A region with several branches ends in a vertex with several targets. -/
theorem Ending.exists_vertex (ending : Ending config targets graph v)
    (several : 2 ≤ (graph.branches v).length) :
    ∃ vertex, graph.branchingVertex? v = some vertex ∧ 2 ≤ (targets vertex).length := by
  cases ending with
  | plain isVertex _ firsts =>
      have sameLength := congrArg List.length firsts
      rw [List.length_map, List.length_map] at sameLength
      exact ⟨_, isVertex, sameLength ▸ several⟩
  | folded isVertex _ isFirst _ _ _ _ leads =>
      refine ⟨_, isVertex, Nat.le_of_eq ?_⟩
      rw [← isFirst, leads.two_targets _ (Cond.first_mem_vertices _)]
  | closed _ _ few => omega

/-- Only leaves, sequences and copies end in a vertex. -/
theorem WellFormed.kind_of_branchingVertex? (wellFormed : graph.WellFormed)
    (live : graph.isLive v = true) {vertex : Nat}
    (isVertex : graph.branchingVertex? v = some vertex) :
    graph.kind? v = some .leaf ∨ graph.kind? v = some .seq ∨ graph.kind? v = some .tail := by
  rw [wellFormed.branchingVertex?_unfold (Digraph.lt_size_of_isLive live)] at isVertex
  unfold kind?
  cases found : graph.table v with
  | none =>
      rw [found] at isVertex
      cases isVertex
  | some node =>
      obtain ⟨shape, cond⟩ := node
      rw [found] at isVertex
      cases shape with
      | leaf => exact .inl rfl
      | seq => exact .inr (.inl rfl)
      | tail => exact .inr (.inr rfl)
      | _ => cases isVertex

/-- A vertex of the input that branches takes part in it, and has no edges but its
branches. -/
theorem Taken.isLive_of_target {α : Type} {input : Digraph α} {entry : Nat}
    (taken : Taken input entry input.size graph) (sound : Sound input)
    (branches : inputTargets input v ≠ []) :
    input.isLive v = true ∧ (input.successors v).length = (inputTargets input v).length := by
  obtain ⟨real, sameLength⟩ := taken.length_successors_of_target branches
  have someEdge : input.successors v ≠ [] := by
    rw [← List.length_pos_iff, sameLength]
    exact List.length_pos_iff.mpr branches
  obtain ⟨t, edge⟩ := List.exists_mem_of_ne_nil _ someEdge
  refine ⟨sound.consistent.isLive_of_not_isDetached real ?_ (sound.attached edge).1, sameLength⟩
  exact Digraph.lt_size_of_mem_neighbours edge

/-- What the rules read off a region graph without checking it. -/
structure Orderly {α : Type} (input : Digraph α) (graph : RegionGraph) : Prop where
  /-- The root leads to one live region, by one edge. -/
  entry : ∃ e, graph.successors root = [e] ∧ graph.isLive e = true
  /-- Nothing leads back to the root. -/
  unentered : graph.predecessors root = []
  /-- The terminator leads nowhere. -/
  final : graph.successors terminator = []
  /-- A detached region is out of the flow. -/
  apart : ∀ r, (graph.table r).isSome = true → graph.isDetached r = true →
    graph.successors r = [] ∧ graph.predecessors r = []
  /-- A live region returns by at most one edge. -/
  returns : ∀ r, graph.isLive r = true → (graph.successors r).count terminator ≤ 1
  /-- Several branches are those of an input vertex that ends a leaf, a sequence or a
  copy. -/
  branching : ∀ r, graph.isLive r = true → 2 ≤ (graph.branches r).length →
    (graph.kind? r = some .leaf ∨ graph.kind? r = some .seq ∨ graph.kind? r = some .tail) ∧
      ∃ vertex, graph.branchingVertex? r = some vertex ∧ input.isLive vertex = true

theorem WellFormed.neighbours_of_isDetached (wellFormed : graph.WellFormed)
    (isRegion : (graph.table v).isSome = true) (detached : graph.isDetached v = true) :
    graph.successors v = [] ∧ graph.predecessors v = [] := by
  have real := ((table_isSome_iff wellFormed.consistent).mp isRegion).1
  have dead : graph.isLive v ≠ true := by
    intro live
    rw [((Digraph.isLive_iff graph v).mp live).2] at detached
    cases detached
  simp only [List.eq_nil_iff_forall_not_mem]
  refine ⟨fun t edge => ?_, fun p edge => ?_⟩
  · rcases (wellFormed.ends edge).1 with rfl | live
    · exact absurd real (by decide)
    · exact dead live
  · rcases (wellFormed.ends (wellFormed.consistent.mem_predecessors.mp edge)).2 with rfl | live
    · exact absurd real (by decide)
    · exact dead live

theorem WellFormed.predecessors_root (wellFormed : graph.WellFormed) :
    graph.predecessors root = [] := by
  rw [List.eq_nil_iff_forall_not_mem]
  intro p edge
  rcases (wellFormed.ends (wellFormed.consistent.mem_predecessors.mp edge)).2 with isEnd | live
  · cases isEnd
  · exact wellFormed.ne_root_of_isLive live rfl

theorem orderly {α : Type} {input : Digraph α} {entry : Nat} {start : RegionGraph}
    (taken : Taken input entry input.size start) (sound : Sound input)
    (wellFormed : graph.WellFormed) (faithful : Faithful config (inputTargets input) graph)
    (once : graph.ReturnsOnce) : graph.Orderly input where
  entry := wellFormed.entry.imp fun _ facts => ⟨facts.1, facts.2.1⟩
  unentered := wellFormed.predecessors_root
  final := wellFormed.successors_terminator
  apart := fun _ => wellFormed.neighbours_of_isDetached
  returns := fun r _ => once r
  branching := by
    intro r live several
    obtain ⟨vertex, isVertex, many⟩ := (faithful.ending live).exists_vertex several
    refine ⟨wellFormed.kind_of_branchingVertex? live isVertex, vertex, isVertex, ?_⟩
    exact (taken.isLive_of_target sound (List.ne_nil_of_length_pos (by omega))).1

/-- The graph a run starts from holds bare leaves. -/
theorem Taken.allDecided {α : Type} {input : Digraph α} {entry : Nat}
    (taken : Taken input entry input.size graph) (targets : Nat → List Nat) :
    graph.AllDecided targets := by
  intro i node found
  rw [taken.table_eq] at found
  split at found
  · cases found
    exact Node.decided_of_unconditional rfl rfl
  · cases found

end RegionGraph

namespace Structuring

variable {α : Type} {config : Config} {input : Digraph α} {structuring : Structuring}

/-- The region graph is orderly in every state of a run from an accepted graph whose
edges join vertices that are not detached and whose root leads to a real vertex.  In
every tree that runs come to, a node that chooses has a condition, and conditions test
only vertices of the input that have two edges. -/
theorem run_orderly (built : input.Built)
    (attached : ∀ {u v}, v ∈ input.successors u →
      input.isDetached u = false ∧ input.isDetached v = false)
    (rooted : ∀ v ∈ input.successors root, (input.payload? v).isSome = true)
    (accepted : Structuring.ofGraph config input = .ok structuring) :
    (∀ state, State.Reached config structuring.state state → state.graph.Orderly input) ∧
    ∀ count tree, (structuring.afterRuns count).run.2.2 = .ok tree →
      ∀ i node, tree.table i = some node →
        node.Decided fun v => input.isLive v = true ∧ (input.successors v).length = 2 := by
  have sound : RegionGraph.Sound input :=
    ⟨built.consistent, attached, fun v edge =>
      ((built.consistent.payloads v).mp (rooted v edge)).1⟩
  obtain ⟨sameConfig, unfinished, _, _, ⟨entry, _, taken⟩, proper⟩ := proper_ofGraph sound accepted
  refine ⟨fun state reached => ?_, fun count tree result i node found => ?_⟩
  · have here := proper.reached reached
    exact RegionGraph.orderly taken sound here.wellFormed here.faithful
      (proper.returnsOnce taken.returnsOnce reached)
  · obtain ⟨final, reached, finished⟩ :=
      structuring.exists_final_afterRuns unfinished count result
    obtain ⟨top, rfl⟩ := State.tree_of_finish? finished
    rw [State.table_tree] at found
    have decided := proper.allDecided (taken.allDecided _) (sameConfig ▸ reached) i node found
    refine decided.mono fun v two => ?_
    obtain ⟨live, sameLength⟩ := taken.isLive_of_target (v := v) sound
      (List.ne_nil_of_length_pos (by omega))
    exact ⟨live, sameLength.trans two⟩

def twoTests : Digraph Unit :=
  Digraph.ofEdges 4 [(0, 2), (2, 3), (2, 5), (3, 4), (3, 5), (4, 2), (5, 1)]

/-- The second test is folded into the first, and the loop tests both. -/
theorem run_orderly_twoTests :
    ∃ structuring tree, Structuring.ofGraph { onlyTests := (· == 3) } twoTests = .ok structuring ∧
      structuring.run.2.2 = .ok tree ∧ structuring.run.1.state.graph.Orderly twoTests ∧
      ∃ node, tree.table 7 = some node ∧ node.kind = .whileLoop ∧ node.tested = [2, 3] ∧
        node.Decided fun v => twoTests.isLive v = true ∧ (twoTests.successors v).length = 2 := by
  have built : twoTests.Built := Digraph.built_ofEdges (by decide)
  have loops : ((Structuring.ofGraph { onlyTests := (· == 3) } twoTests).toOption.bind
      fun structuring => structuring.run.2.2.toOption.bind fun tree => tree.table 7) =
        some ⟨.whileLoop 6 4, some (.and (.test 2) (.test 3))⟩ := by
    decide +kernel
  cases accepted : Structuring.ofGraph { onlyTests := (· == 3) } twoTests with
  | error rejected =>
      rw [accepted] at loops
      cases loops
  | ok structuring =>
      rw [accepted] at loops
      change structuring.run.2.2.toOption.bind _ = _ at loops
      obtain ⟨orderly, decided⟩ := run_orderly built
        (RegionGraph.attached_of_lt (by decide +kernel)) (by decide +kernel) accepted
      obtain ⟨-, reached⟩ := structuring.reached_run
      have isConfig : structuring.config = { onlyTests := (· == 3) } := by
        obtain ⟨_, _, rfl⟩ := exists_graph_of_ofGraph accepted
        rfl
      cases result : structuring.run.2.2 with
      | error problem =>
          rw [result] at loops
          cases loops
      | ok tree =>
          rw [result] at loops
          exact ⟨structuring, tree, rfl, result, orderly _ (isConfig ▸ reached), _, loops, rfl, rfl,
            decided 0 tree result 7 _ loops⟩

end Structuring

end FlowRegions
