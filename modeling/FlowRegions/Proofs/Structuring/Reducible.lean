import FlowRegions.Proofs.Structuring.Contraction
import FlowRegions.Proofs.Structuring.Reachability
import FlowRegions.Proofs.Structuring.Endings
import FlowRegions.Proofs.Structuring.Rootless

/-!
Contract: runs from reducible flow.

When every cycle of the input has a vertex that dominates it, so has every cycle
of every region graph of a run: cuts and prunes add edges to sinks only, and
collapses are contractions.  No edge then enters a loop sideways, so nothing is
duplicated.

Owns:
- `RegionGraph.sidewaysEdge?_eq_none`, that such graphs have no second entry
  into a loop;
- `State.Reducible`, with its step and run lemmas, and
  `Structuring.reducible_never_duplicates`.
-/

namespace FlowRegions

open FlowRegions.Digraph (root terminator)

namespace RegionGraph

variable {graph changed : RegionGraph}

/-! ## Second entries into loops -/

section Sideways

variable (consistent : graph.Consistent)
include consistent

/-- What descends from a region is reached from it through regions with greater
numbers. -/
theorem reaches_above_of_descends {u v : Nat}
    (descends : (Analysis.ofGraph graph).descends v u = true) :
    Relation.ReflTransGen (fun a b => graph.Edge .forward a b ∧
      (Analysis.ofGraph graph).order u < (Analysis.ofGraph graph).order b) u v := by
  obtain ⟨uReached, vReached, _⟩ := Analysis.walk_of_descends consistent descends
  obtain ⟨i, iWithin, rfl⟩ := Analysis.exists_number consistent uReached
  obtain ⟨j, jWithin, rfl⟩ := Analysis.exists_number consistent vReached
  have down := (Analysis.numbers consistent).tree.walk_down
    ((Analysis.descends_vertexAt consistent iWithin jWithin).mp descends) jWithin
  refine down.lift _ fun a b step => ⟨step.1.2.2, ?_⟩
  rw [Analysis.order_vertexAt consistent iWithin, Analysis.order_vertexAt consistent step.1.2.1]
  exact step.2.1

/-- No region with a greater number dominates a region. -/
theorem not_dominates_of_order_lt {d v : Nat} (reaches : graph.Reaches .forward root v)
    (above : (Analysis.ofGraph graph).order v < (Analysis.ofGraph graph).order d) :
    ¬ graph.Dominates .forward d v := by
  have numbers := Analysis.numbers consistent
  have start := numbers.vertexAt_zero
  obtain ⟨i, within, rfl⟩ := Analysis.exists_number consistent reaches
  rw [Analysis.order_vertexAt consistent within] at above
  have differs {b : Nat} (low : b ≤ i) :
      (Analysis.ofGraph graph).dominators.numbering.vertexAt b ≠ d := by
    rintro rfl
    rw [Analysis.order_vertexAt consistent (by omega)] at above
    omega
  -- The way down the tree passes regions with lesser numbers only.
  have down := numbers.tree.walk_down (numbers.tree.zero_ancestor within) within
  refine Digraph.not_dominates_iff.mpr ⟨start ▸ differs (Nat.zero_le i), ?_⟩
  rw [← start]
  exact down.lift _ fun a b step =>
    ⟨step.1.2.2, differs (numbers.tree.ancestor_le step.2.2 within)⟩

/-- In a graph whose cycles have heads no edge enters a loop sideways. -/
theorem sidewaysEdge?_eq_none (headed : graph.HeadedCycles) :
    graph.sidewaysEdge? (Analysis.ofGraph graph) = none := by
  cases found : graph.sidewaysEdge? (Analysis.ofGraph graph) with
  | none => rfl
  | some edge =>
      obtain ⟨source, target⟩ := edge
      obtain ⟨_, isExit, descends, notDominated⟩ := State.sidewaysEdge?_eq_some found
      obtain ⟨targetReached, sourceReached, _⟩ := Analysis.walk_of_descends consistent descends
      obtain ⟨path, walk, distinct, above⟩ :=
        Digraph.exists_simple_walk (reaches_above_of_descends consistent descends)
      obtain ⟨head, isHead, dominates⟩ := headed path
        ⟨distinct, target, source, walk, (mem_exits.mp isExit).1⟩
        ⟨target, walk.start_mem, targetReached⟩
      rcases above head isHead with rfl | greater
      · have dominated := (Analysis.dominates_iff consistent).mpr
          ⟨targetReached, sourceReached, dominates source walk.end_mem⟩
        rw [notDominated] at dominated
        cases dominated
      · exact absurd (dominates target walk.start_mem)
          (not_dominates_of_order_lt consistent targetReached greater)

end Sideways

end RegionGraph

/-! ## Runs -/

namespace RegionGraph

def NoTails (graph : RegionGraph) : Prop :=
  ∀ i node, graph.table i = some node → node.kind ≠ .tail

/-- Rules never make copies. -/
theorem Matches.kind_ne_tail {config : Config} {labels : List Nat} {graph : RegionGraph} {v : Nat}
    {collapse : Collapse} (found : Matches config labels graph v collapse) :
    collapse.node.kind ≠ .tail := by
  cases found with
  | @compound m vertex first second head folded outer inner foldable branch =>
      show head.kind ≠ .tail
      rcases foldable.head_kind with isKind | isKind
      · rw [isKind]
        decide
      · rw [isKind]
        decide
  | _ => exact fun isTail => nomatch isTail

/-- A loop is cut for reasons of its own. -/
theorem reason_of_loopCut? {graph : RegionGraph} {analysis : Analysis} {loop : NaturalLoop}
    {cut : Cut} (found : graph.loopCut? analysis loop = some cut) :
    cut.reason ≠ .irreducible := by
  unfold loopCut? at found
  split at found
  · cases found
    exact nofun
  · split at found
    · cases found
    · cases found
      exact nofun
    · split at found
      · cases found
        exact nofun
      · cases found
        exact nofun

end RegionGraph

namespace State

variable {config : Config} {state next : State}

/-- What every state of a run from reducible flow keeps. -/
structure Reducible (state : State) : Prop where
  wellFormed : state.graph.WellFormed
  headed : state.graph.HeadedCycles
  noTails : state.graph.NoTails
  uncopied : state.duplicated = []

namespace Reducible

variable (reducible : Reducible state)
include reducible

/-- Second entries into loops are no reason to act. -/
theorem resolve?_cases {action : Action}
    (found : state.resolve? config (Analysis.ofGraph state.graph) = some action) :
    ∃ cut : Cut, action = .cut cut ∧ cut.reason ≠ .irreducible := by
  unfold resolve? at found
  dsimp only at found
  rw [RegionGraph.sidewaysEdge?_eq_none reducible.wellFormed.consistent reducible.headed] at found
  dsimp only at found
  split at found
  · obtain ⟨cut, isCut, rfl⟩ := Option.map_eq_some_iff.mp found
    exact ⟨cut, rfl, RegionGraph.reason_of_loopCut? isCut⟩
  · obtain ⟨edge, _, rfl⟩ := Option.map_eq_some_iff.mp found
    exact ⟨_, rfl, nofun⟩

theorem choose_cases {action : Action} (chosen : state.choose config = some action) :
    (∃ regions, action = .prune regions) ∨ (∃ collapse, action = .collapse collapse) ∨
      ∃ cut : Cut, action = .cut cut ∧ cut.reason ≠ .irreducible := by
  unfold choose at chosen
  dsimp only at chosen
  split at chosen
  · split at chosen
    · exact .inr (.inl ⟨_, (Option.some.inj chosen).symm⟩)
    · exact .inr (.inr (reducible.resolve?_cases chosen))
  · exact .inl ⟨_, (Option.some.inj chosen).symm⟩

/-- A step keeps flow reducible. -/
theorem step (steps : Steps config state next) : Reducible next := by
  obtain ⟨_, action, chosen, rfl⟩ := steps
  have wellFormed := reducible.wellFormed
  have legal := legal_of_choose wellFormed chosen
  have after := legal.keeps_wellFormed wellFormed
  have cases := reducible.choose_cases chosen
  cases legal with
  | @prune regions someStray strayIff =>
      have pruned := RegionGraph.pruned_isolateAll wellFormed.consistent regions
      refine ⟨after, ?_, ?_, reducible.uncopied⟩
      · exact reducible.headed.of_edges fun edge _ => (pruned.successors_cases edge).2.2
      · intro i node found
        exact reducible.noTails i node ((pruned.table_eq i).symm.trans found)
  | @collapse v collapse all live found =>
      have fits := found.fits wellFormed live
      have collapsed := RegionGraph.collapsed_collapse wellFormed fits
      have contracts := collapsed.contracts fits wellFormed all fun m member =>
        found.absorbed_or_unentered wellFormed.consistent fits.live member
      refine ⟨after, contracts.headedCycles_place reducible.headed, ?_, reducible.uncopied⟩
      intro i node isNode
      rcases collapsed.table_cases isNode with ⟨_, old⟩ | ⟨_, _, isPart⟩ | ⟨_, rfl⟩
      · exact reducible.noTails i node old
      · obtain ⟨nodes, rfl, _⟩ := fits.part_shape _ isPart
        exact nofun
      · exact found.kind_ne_tail
  | duplicate all few live entering =>
      rcases cases with ⟨_, same⟩ | ⟨_, same⟩ | ⟨_, same, _⟩
      · cases same
      · cases same
      · cases same
  | @cut source target other reason all live edge different entering ahead =>
      have severed := RegionGraph.severed_redirect wellFormed.consistent source target
      refine ⟨after, ?_, ?_, reducible.uncopied⟩
      · refine reducible.headed.of_edges fun edge onward => ?_
        rcases severed.successors_cases wellFormed edge with ⟨isJump, _⟩ | ⟨_, old⟩
        · rw [isJump] at onward
          exact absurd severed.successors_new onward
        · exact old
      · intro i node found
        rcases severed.table_cases found with ⟨_, old⟩ | ⟨_, rfl⟩
        · exact reducible.noTails i node old
        · exact nofun

theorem reached (reached : Reached config state next) : Reducible next := by
  induction reached with
  | refl => exact reducible
  | tail _ steps inductionHypothesis => exact inductionHypothesis.step steps

end Reducible

end State

namespace Structuring

variable {α : Type} {config : Config} {input : Digraph α} {structuring : Structuring}

theorem start_ofGraph (accepted : Structuring.ofGraph config input = .ok structuring) :
    structuring.config = config ∧ structuring.finished = none ∧
      structuring.state.duplicated = [] := by
  obtain ⟨graph, _, rfl⟩ := exists_graph_of_ofGraph accepted
  exact ⟨rfl, rfl, rfl⟩

/-- The state a run from reducible flow starts from. -/
theorem reducible_ofGraph (sound : RegionGraph.Sound input) (headed : input.HeadedCycles)
    (accepted : Structuring.ofGraph config input = .ok structuring) :
    State.Reducible structuring.state := by
  obtain ⟨_, _, _, uncopied, ⟨entry, entries, taken⟩, proper⟩ := proper_ofGraph sound accepted
  refine ⟨proper.wellFormed, ?_, ?_, uncopied⟩
  · exact headed.of_edges fun edge _ => ((taken.mem_successors_iff entries).mp edge).2
  · intro i node found
    rw [taken.node_eq found]
    exact nofun

/-- Reducible flow is never duplicated.  When every cycle that the root of an
accepted graph reaches has a vertex that dominates it, then in no state of a run an
edge enters a loop sideways, nothing is duplicated, the table holds no copy and no
edge is cut for being irreducible; nor does the tree of the run hold a copy. -/
theorem reducible_never_duplicates (built : input.Built)
    (attached : ∀ {u v}, v ∈ input.successors u →
      input.isDetached u = false ∧ input.isDetached v = false)
    (headed : input.HeadedCycles)
    (accepted : Structuring.ofGraph config input = .ok structuring) :
    (∀ state, State.Reached config structuring.state state →
      state.graph.sidewaysEdge? (Analysis.ofGraph state.graph) = none ∧
      state.duplicated = [] ∧ state.graph.NoTails ∧
      ∀ cut, state.choose config = some (.cut cut) → cut.reason ≠ .irreducible) ∧
    ∀ tree, structuring.run.2.2 = .ok tree → tree.duplicated = [] ∧
      ∀ i node, tree.table i = some node → node.kind ≠ .tail := by
  have start := start_ofGraph accepted
  have states (state : State) (reached : State.Reached config structuring.state state) :
      state.graph.sidewaysEdge? (Analysis.ofGraph state.graph) = none ∧
      state.duplicated = [] ∧ state.graph.NoTails ∧
      ∀ cut, state.choose config = some (.cut cut) → cut.reason ≠ .irreducible := by
    rcases cases_ofGraph ⟨built.consistent, attached⟩ accepted with
      sound | ⟨rootless, entry, taken⟩
    · have reducible := (reducible_ofGraph sound headed accepted).reached reached
      refine ⟨RegionGraph.sidewaysEdge?_eq_none reducible.wellFormed.consistent reducible.headed,
        reducible.uncopied, reducible.noTails, fun cut chosen => ?_⟩
      rcases reducible.choose_cases chosen with ⟨_, same⟩ | ⟨_, same⟩ | ⟨_, same, other⟩
      · cases same
      · cases same
      · cases same
        exact other
    · -- Nothing is reached: a run prunes and does nothing else.
      obtain ⟨table, uncopied⟩ := rootless.table_eq reached
      have here := (rootless.reached reached).1
      refine ⟨?_, ?_, fun i node found => ?_, fun cut chosen => ?_⟩
      · simp [RegionGraph.sidewaysEdge?, here.postorder_eq_nil]
      · rw [uncopied, start.2.2]
      · rw [table] at found
        rw [taken.node_eq found]
        intro isTail
        cases isTail
      · cases here.prunes_of_choose chosen
  refine ⟨states, fun tree result => ?_⟩
  rw [Structuring.run, start.2.1, start.1] at result
  obtain ⟨final, reached, finished⟩ := State.exists_final_of_run result
  obtain ⟨entry, rfl⟩ := State.tree_of_finish? finished
  obtain ⟨_, uncopied, noTails, _⟩ := states final reached
  refine ⟨uncopied, fun i node found => noTails i node ?_⟩
  rwa [State.table_tree] at found

def leftTwice : Digraph Unit :=
  Digraph.ofEdges 4 [(0, 2), (2, 3), (2, 5), (3, 4), (3, 5), (4, 2), (5, 1)]

/-- Its only head is its entry: other edges lead to later vertices. -/
theorem headedCycles_leftTwice : leftTwice.HeadedCycles := by
  have onward : ∀ u < leftTwice.size, ∀ v ∈ leftTwice.successors u,
      v ≠ root ∧ (v = 2 ∨ (u + 5) % 7 < (v + 5) % 7) := by
    decide +kernel
  have edge {u v : Nat} (member : v ∈ leftTwice.successors u) :=
    onward u (Digraph.lt_size_of_mem_neighbours member) v member
  have rises {u w : Nat} {path : List Nat} (walk : leftTwice.Walk .forward u w path)
      (past : 2 ∉ path) : (u + 5) % 7 ≤ (w + 5) % 7 := by
    induction walk with
    | stay v => exact Nat.le_refl _
    | @step u v w path first rest inductionHypothesis =>
        obtain ⟨_, later⟩ := not_or.mp (List.mem_cons.not.mp past)
        have notEntry : v ≠ 2 := by
          rintro rfl
          exact later rest.start_mem
        have := (edge first).2.resolve_left notEntry
        have := inductionHypothesis later
        omega
  intro path cycle _
  have through : 2 ∈ path := by
    by_contra past
    obtain ⟨_, v, w, walk, back⟩ := cycle
    have notEntry : v ≠ 2 := by
      rintro rfl
      exact past walk.start_mem
    have := (edge back).2.resolve_left notEntry
    have := rises walk past
    omega
  refine ⟨2, through, fun v member other walk => ?_⟩
  obtain ⟨_, _, _, _, back⟩ := cycle.rotate member
  cases walk with
  | stay => exact absurd rfl (edge back).1
  | @step _ next _ _ first rest =>
      have isEntry : next = 2 := List.mem_singleton.mp
        ((show leftTwice.successors root = [2] by decide +kernel) ▸ first)
      exact List.mem_cons_of_mem _ (isEntry ▸ rest.start_mem)

/-- An exit of the loop is cut, and nothing is duplicated. -/
theorem reducible_never_duplicates_left_twice :
    ∃ structuring, Structuring.ofGraph {} leftTwice = .ok structuring ∧
      structuring.state.choose {} = some (.cut ⟨3, 5, .loopExit⟩) ∧
      (∀ state, State.Reached {} structuring.state state →
        state.graph.sidewaysEdge? (Analysis.ofGraph state.graph) = none) ∧
      ∃ tree, structuring.run.2.2 = .ok tree ∧ tree.duplicated = [] := by
  have first : ((Structuring.ofGraph {} leftTwice).toOption.bind fun structuring =>
      structuring.state.choose {}) = some (.cut ⟨3, 5, .loopExit⟩) := by decide +kernel
  have ran : ((Structuring.ofGraph {} leftTwice).toOption.bind fun structuring =>
      structuring.run.2.2.toOption.map Tree.unreachable) = some [] := by decide +kernel
  cases accepted : Structuring.ofGraph {} leftTwice with
  | error rejected =>
      rw [accepted] at first
      cases first
  | ok structuring =>
      rw [accepted] at first ran
      obtain ⟨states, trees⟩ := reducible_never_duplicates
        (Digraph.built_ofEdges (by decide)) (RegionGraph.attached_of_lt (by decide +kernel))
        headedCycles_leftTwice accepted
      obtain ⟨tree, isTree, _⟩ := Option.map_eq_some_iff.mp ran
      refine ⟨structuring, rfl, first, fun state reached => (states state reached).1, tree, ?_⟩
      cases result : structuring.run.2.2 with
      | error failed =>
          rw [result] at isTree
          cases isTree
      | ok other =>
          rw [result] at isTree
          cases isTree
          exact ⟨rfl, (trees tree result).1⟩

end Structuring

end FlowRegions
