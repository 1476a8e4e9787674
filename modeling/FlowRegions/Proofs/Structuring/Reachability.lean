import FlowRegions.Proofs.Structuring.Labels
import FlowRegions.Proofs.Structuring.Progress

/-!
Contract: what a run leaves out as unreachable.

Behind every step each live region is reached from the root, so only the first
step of a run can prune.  What it leaves out are the vertices that the graph the
run starts from does not reach, and that graph reaches exactly what walks of the
input reach that pass the terminator by.

Owns:
- `RegionGraph.Taken.reaches_iff`, which vertices the graph a run starts from
  reaches;
- `State.Sifted`, what is known behind the first step, with its step and run
  lemmas;
- `Structuring.run_keeps_reachable`, that runs lose no vertex that is reachable.
-/

namespace FlowRegions

open FlowRegions.Digraph (root terminator)

/-! ## The graph a run starts from -/

namespace RegionGraph.Taken

variable {α : Type} {input : Digraph α} {entry : Nat} {graph : RegionGraph}

theorem leaves_eq (taken : Taken input entry input.size graph) {v : Nat} (real : 2 ≤ v)
    (within : v < input.size) : graph.leaves v = [v] := by
  rw [leaves_eq_gather, gather_node taken.nested (taken.table_leaf real within)]
  rfl

section Walks

variable (entries : (input.successors root).eraseDups = [entry])
  (taken : Taken input entry input.size graph)
include entries taken

/-- The edges of the input are there, but for those that leave the
terminator. -/
theorem mem_successors_iff {u v : Nat} :
    v ∈ graph.successors u ↔ u ≠ terminator ∧ v ∈ input.successors u := by
  rw [taken.successors_eq]
  by_cases isRoot : u = root
  · rw [if_pos isRoot, ← entries, List.mem_eraseDups, isRoot]
    exact (and_iff_right (by decide)).symm
  rw [if_neg isRoot]
  by_cases bounds : 2 ≤ u ∧ u < input.size
  · rw [if_pos bounds]
    refine (and_iff_right ?_).symm
    simp only [terminator]
    omega
  rw [if_neg bounds]
  refine iff_of_false List.not_mem_nil ?_
  rintro ⟨notEnd, edge⟩
  have within := Digraph.lt_size_of_mem_neighbours edge
  simp only [root, terminator] at isRoot notEnd
  omega

/-- The root reaches what walks of the input reach that pass the terminator
by. -/
theorem reaches_iff {v : Nat} (notEnd : v ≠ terminator) :
    graph.Reaches .forward root v ↔
      ∃ path, input.Walk .forward root v path ∧ terminator ∉ path := by
  rw [Digraph.exists_walk_past_iff, Digraph.reaches_iff]
  constructor
  · intro reaches
    refine ⟨by decide, ?_⟩
    revert notEnd
    induction reaches with
    | refl =>
        intro _
        exact .refl
    | @tail u v before edge inductionHypothesis =>
        intro notEnd
        obtain ⟨uNotEnd, isEdge⟩ := (taken.mem_successors_iff entries).mp edge
        exact (inductionHypothesis uNotEnd).tail ⟨isEdge, notEnd⟩
  · intro past
    clear notEnd
    suffices all : v ≠ terminator ∧
        Relation.ReflTransGen (graph.Edge .forward) root v from all.2
    obtain ⟨_, past⟩ := past
    induction past with
    | refl => exact ⟨by decide, .refl⟩
    | @tail u v before edge inductionHypothesis =>
        obtain ⟨uNotEnd, reaches⟩ := inductionHypothesis
        exact ⟨edge.2,
          reaches.tail ((taken.mem_successors_iff entries).mpr ⟨uNotEnd, edge.1⟩)⟩

end Walks

end RegionGraph.Taken

/-! ## Steps -/

namespace State

variable {config : Config} {start state next later : State}

theorem pairwise_strays (state : State) (analysis : Analysis) :
    (state.strays analysis).Pairwise (· < ·) :=
  (List.pairwise_lt_range.filter _).filter _

/-- A prune detaches the strays. -/
theorem strays_of_prune {regions : List Nat}
    (chosen : state.choose config = some (.prune regions)) :
    regions = state.strays (Analysis.ofGraph state.graph) := by
  cases choice_of_choose chosen with
  | prune someStray => rfl

/-- When every live region is reached, nothing is pruned. -/
theorem Legal.not_prune {action : Action} (all : state.graph.AllReached)
    (legal : Legal config state action) (regions : List Nat) : action ≠ .prune regions := by
  rintro rfl
  cases legal with
  | prune someStray strayIff =>
      obtain ⟨r, isStray⟩ := List.exists_mem_of_ne_nil _ someStray
      obtain ⟨live, unreached⟩ := (strayIff r).mp isStray
      exact unreached (all r live)

theorem unreachable_perform {action : Action} (notPrune : ∀ regions, action ≠ .prune regions) :
    (state.perform action).1.unreachable = state.unreachable := by
  cases action with
  | prune regions => exact absurd rfl (notPrune regions)
  | collapse | duplicate | cut => rfl

/-- Behind the first step of a run every live region is reached, and the
vertices left out are the strays of the state the run starts from. -/
structure Sifted (start state : State) : Prop where
  all : state.graph.AllReached
  unreachable_eq : state.unreachable = start.strays (Analysis.ofGraph start.graph)

theorem Sifted.of_allReached (wellFormed : start.graph.WellFormed)
    (none : start.unreachable = []) (all : start.graph.AllReached) : Sifted start start := by
  refine ⟨all, ?_⟩
  rw [none, eq_comm, List.eq_nil_iff_forall_not_mem]
  intro r isStray
  obtain ⟨live, unreached⟩ := (mem_strays wellFormed.consistent).mp isStray
  exact unreached (all r live)

/-- Steps leave out nothing once every live region is reached. -/
theorem Sifted.step (sifted : Sifted start state) (wellFormed : state.graph.WellFormed)
    (steps : Steps config state next) : Sifted start next := by
  obtain ⟨_, action, chosen, rfl⟩ := steps
  have legal := legal_of_choose wellFormed chosen
  refine ⟨legal.allReached wellFormed, ?_⟩
  rw [unreachable_perform (legal.not_prune sifted.all), sifted.unreachable_eq]

/-- The first step sifts when every region is a single leaf. -/
theorem Steps.sifted (wellFormed : start.graph.WellFormed) (none : start.unreachable = [])
    (leaf : ∀ v, start.graph.isLive v = true → start.graph.leaves v = [v])
    (steps : Steps config start next) : Sifted start next := by
  by_cases all : start.graph.AllReached
  · exact (Sifted.of_allReached wellFormed none all).step wellFormed steps
  obtain ⟨_, action, chosen, rfl⟩ := steps
  have legal := legal_of_choose wellFormed chosen
  refine ⟨legal.allReached wellFormed, ?_⟩
  cases legal with
  | @prune regions someStray strayIff =>
      have lost : regions.flatMap start.graph.leaves = regions := by
        calc regions.flatMap start.graph.leaves
            = regions.flatMap (fun v => [v]) := List.flatMap_congr fun v isStray =>
              leaf v ((strayIff v).mp isStray).1
          _ = regions := List.flatMap_singleton' regions
      show sortNats (start.unreachable ++ regions.flatMap start.graph.leaves) = _
      rw [none, List.nil_append, lost, strays_of_prune chosen]
      apply sortNats_of_pairwise
      exact (pairwise_strays _ _).imp Nat.le_of_lt
  | collapse reached | duplicate reached | cut reached => exact absurd reached all

/-- The states of a run behind its first step are sifted. -/
theorem Proper.sifted {targets : Nat → List Nat} (proper : Proper config targets start)
    (none : start.unreachable = [])
    (leaf : ∀ v, start.graph.isLive v = true → start.graph.leaves v = [v])
    (first : Steps config start next) (reached : Reached config next later) :
    Sifted start later := by
  induction reached with
  | refl => exact first.sifted proper.wellFormed none leaf
  | @tail state later before steps inductionHypothesis =>
      exact inductionHypothesis.step (proper.reached (.head first before)).wellFormed steps

end State

/-! ## Runs -/

namespace Structuring

variable {α : Type} {config : Config} {input : Digraph α} {structuring : Structuring}

theorem unreachable_ofGraph (accepted : Structuring.ofGraph config input = .ok structuring) :
    structuring.state.unreachable = [] := by
  obtain ⟨graph, _, rfl⟩ := exists_graph_of_ofGraph accepted
  rfl

/-- Which strays the state a run starts from has. -/
theorem mem_strays_iff (sound : RegionGraph.Sound input)
    (accepted : Structuring.ofGraph config input = .ok structuring) (v : Nat) :
    v ∈ structuring.state.strays (Analysis.ofGraph structuring.state.graph) ↔
      (2 ≤ v ∧ v < input.size ∧ input.isDetached v = false) ∧
        ∀ path, input.Walk .forward root v path → terminator ∈ path := by
  obtain ⟨_, _, _, _, ⟨entry, entries, taken⟩, proper⟩ := proper_ofGraph sound accepted
  rw [State.mem_strays proper.wellFormed.consistent, taken.isLive_iff]
  refine and_congr_right fun ⟨real, _⟩ => ?_
  have notEnd : v ≠ terminator := by
    simp only [terminator]
    omega
  rw [taken.reaches_iff entries notEnd]
  push Not
  rfl

/-- The states of a run behind its first step are sifted. -/
theorem sifted_of_steps (sound : RegionGraph.Sound input)
    (accepted : Structuring.ofGraph config input = .ok structuring) {next later : State}
    (first : State.Steps config structuring.state next)
    (reached : State.Reached config next later) : State.Sifted structuring.state later := by
  obtain ⟨_, _, _, _, ⟨entry, entries, taken⟩, proper⟩ := proper_ofGraph sound accepted
  refine proper.sifted (unreachable_ofGraph accepted) (fun v live => ?_) first reached
  obtain ⟨real, within, _⟩ := (taken.isLive_iff v).mp live
  exact taken.leaves_eq real within

/-- What a run leaves out is not reached by walks that pass the terminator
by. -/
theorem passes_of_mem_unreachable (sound : RegionGraph.Sound input)
    (accepted : Structuring.ofGraph config input = .ok structuring) {state : State}
    (reached : State.Reached config structuring.state state) {v : Nat}
    (leftOut : v ∈ state.unreachable) :
    ∀ path, input.Walk .forward root v path → terminator ∈ path := by
  rcases reached.cases_head with rfl | ⟨next, first, behind⟩
  · rw [unreachable_ofGraph accepted] at leftOut
    cases leftOut
  · rw [(sifted_of_steps sound accepted first behind).unreachable_eq] at leftOut
    exact ((mem_strays_iff sound accepted v).mp leftOut).2

/-- A run from an accepted graph whose edges join vertices that are not detached
and whose root leads to a real vertex loses nothing that is reachable: once every
live region is reached this stays so, nothing is pruned behind the first step,
and a vertex that the input reaches without passing the terminator is never left
out. -/
theorem run_keeps_reachable (built : input.Built)
    (attached : ∀ {u v}, v ∈ input.successors u →
      input.isDetached u = false ∧ input.isDetached v = false)
    (rooted : ∀ v ∈ input.successors root, (input.payload? v).isSome = true)
    (accepted : Structuring.ofGraph config input = .ok structuring) :
    (∀ state, State.Reached config structuring.state state → state.graph.AllReached →
      ∀ later, State.Reached config state later → later.graph.AllReached) ∧
    (∀ next later, State.Steps config structuring.state next → State.Reached config next later →
      ∀ regions, later.choose config ≠ some (.prune regions)) ∧
    ∀ v path, input.Walk .forward root v path → terminator ∉ path →
      (∀ state, State.Reached config structuring.state state → v ∉ state.unreachable) ∧
      ∀ tree, structuring.run.2.2 = .ok tree → v ∉ tree.unreachable := by
  have sound : RegionGraph.Sound input :=
    ⟨built.consistent, attached, fun v edge =>
      ((built.consistent.payloads v).mp (rooted v edge)).1⟩
  obtain ⟨_, _, _, _, _, proper⟩ := proper_ofGraph sound accepted
  refine ⟨fun state before all later reached => ?_, fun next later first reached regions => ?_,
    fun v path walk past => ?_⟩
  · induction reached with
    | refl => exact all
    | @tail state later between steps _ =>
        obtain ⟨_, action, chosen, rfl⟩ := steps
        have wellFormed := (proper.reached (before.trans between)).wellFormed
        exact (State.legal_of_choose wellFormed chosen).allReached wellFormed
  · intro chosen
    have sifted := sifted_of_steps sound accepted first reached
    have wellFormed := (proper.reached (.head first reached)).wellFormed
    exact (State.legal_of_choose wellFormed chosen).not_prune sifted.all regions rfl
  · have kept {state : State} (reached : State.Reached config structuring.state state) :
        v ∉ state.unreachable := by
      intro leftOut
      exact past (passes_of_mem_unreachable sound accepted reached leftOut path walk)
    refine ⟨fun state reached => kept reached, fun tree result => ?_⟩
    obtain ⟨final, entry, reached, _, rfl⟩ := exists_final sound accepted result
    exact kept reached

def strayEntry : Digraph Unit :=
  Digraph.ofEdges 5 [(0, 2), (2, 3), (2, 4), (3, 4), (4, 3), (4, 5), (5, 1), (6, 3)]

/-- Of its vertices only the last is left out. -/
theorem run_keeps_reachable_stray_entry :
    ∃ structuring, Structuring.ofGraph {} strayEntry = .ok structuring ∧
      structuring.run.2.2.toOption.map Tree.unreachable = some [6] ∧
      (∀ next later, State.Steps {} structuring.state next → State.Reached {} next later →
        ∀ regions, later.choose {} ≠ some (.prune regions)) ∧
      ∀ state, State.Reached {} structuring.state state → 5 ∉ state.unreachable := by
  have built : strayEntry.Built := Digraph.built_ofEdges (by decide)
  have ran : ((Structuring.ofGraph {} strayEntry).toOption.bind fun structuring =>
      structuring.run.2.2.toOption.map Tree.unreachable) = some [6] := by decide +kernel
  have walk : strayEntry.Walk .forward root 5 [0, 2, 4, 5] :=
    .step (v := 2) (by decide +kernel)
      (.step (v := 4) (by decide +kernel) (.step (by decide +kernel) (.stay 5)))
  cases accepted : Structuring.ofGraph {} strayEntry with
  | error rejected =>
      rw [accepted] at ran
      cases ran
  | ok structuring =>
      rw [accepted] at ran
      obtain ⟨_, noPrune, kept⟩ := run_keeps_reachable built
        (RegionGraph.attached_of_lt (by decide +kernel)) (by decide +kernel) accepted
      exact ⟨structuring, rfl, ran, noPrune, (kept 5 _ walk (by decide)).1⟩

def behindTerminator : Digraph Unit :=
  Digraph.ofEdges 2 [(0, 2), (2, 1), (1, 3)]

/-- Edges that leave the terminator are not followed: the vertex is left out
although the root reaches it. -/
theorem leaves_out_past_terminator :
    behindTerminator.Built ∧
      (∀ u < behindTerminator.size, ∀ v ∈ behindTerminator.successors u,
        behindTerminator.isDetached u = false ∧ behindTerminator.isDetached v = false) ∧
      (∀ v ∈ behindTerminator.successors root, (behindTerminator.payload? v).isSome = true) ∧
      behindTerminator.Reaches .forward root 3 ∧
      ((Structuring.ofGraph {} behindTerminator).toOption.bind fun structuring =>
        structuring.run.2.2.toOption.map Tree.unreachable) = some [3] := by
  refine ⟨Digraph.built_ofEdges (by decide), by decide +kernel, by decide +kernel, ?_,
    by decide +kernel⟩
  exact ⟨[0, 2, 1, 3], .step (v := 2) (by decide +kernel)
    (.step (v := 1) (by decide +kernel) (.step (by decide +kernel) (.stay 3)))⟩

end Structuring

end FlowRegions
