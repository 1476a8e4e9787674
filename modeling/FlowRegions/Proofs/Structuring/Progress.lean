import FlowRegions.Proofs.Digraph.Edgeless
import FlowRegions.Proofs.Structuring.CheckedSteps
import FlowRegions.Proofs.Structuring.Runs

/-!
Contract: runs come to an end, with a tree.

Every state of a run that is not finished takes a step, none of whose requests
to the graph is refused, and which is one of a bounded number of duplications or
lowers the weight.  The one exception is an idle collapse, a switch with a
single branch; it needs a vertex with a single target that is marked as a
switch.
-/

namespace FlowRegions

open FlowRegions.Digraph (root terminator)

/-! ## Idle collapses -/

/-- An idle collapse is found at a region with one branch that counts as a
switch. -/
theorem RegionGraph.Matches.idle_branches {config : Config} {labels : List Nat}
    {graph : RegionGraph} {v : Nat} {collapse : Collapse}
    (found : Matches config labels graph v collapse) (idle : collapse.IsIdle) :
    graph.branchesManyWays config v = true ∧ ∃ f, graph.branches v = [f] := by
  cases found with
  | switch switching returnsIff =>
      obtain ⟨_, f, _, branches⟩ := (switching.isIdle_iff rfl).mp idle
      exact ⟨switching.many, f, branches⟩
  | compound foldable branch =>
      obtain ⟨head, shape⟩ := idle
      have kind := foldable.head_kind
      rw [Node.kind, shape] at kind
      simp [Shape.kind] at kind
  | _ =>
      obtain ⟨head, shape⟩ := idle
      cases shape

/-- An idle collapse needs a vertex with one target that is marked as a
switch. -/
theorem State.Proper.exists_of_idles {config : Config} {targets : Nat → List Nat} {state : State}
    (proper : Proper config targets state) (idles : Idles config state) :
    ∃ v, config.multiway v = true ∧ (targets v).length = 1 := by
  obtain ⟨_, collapse, chosen, idle⟩ := idles
  cases legal_of_choose proper.wellFormed chosen with
  | @collapse v _ all live found =>
      obtain ⟨many, f, branches⟩ := found.idle_branches idle
      rw [RegionGraph.branchesManyWays, branches] at many
      cases proper.faithful.ending live with
      | @plain vertex isVertex isCond firsts =>
          refine ⟨vertex, by simpa [isVertex] using many, ?_⟩
          have lengths := congrArg List.length firsts
          simpa [branches] using lengths.symm
      | folded isVertex isCond isFirst isBranches =>
          rw [branches] at isBranches
          cases isBranches
      | closed noVertex noCond few =>
          simp [noVertex] at many

/-- What a proper state chooses to do is done without a refused request. -/
theorem State.Proper.requestAll_requests {config : Config} {targets : Nat → List Nat}
    {state : State} {action : Action} (proper : Proper config targets state)
    (chosen : state.choose config = some action) :
    state.graph.requestAll (state.requests action) = .ok (state.perform action).1.graph :=
  have legal := legal_of_choose proper.wellFormed chosen
  (legal.lawful proper.wellFormed).requestAll_requests proper.wellFormed

/-! ## Runs from an input -/

namespace Structuring

variable {α : Type} {config : Config} {input : Digraph α} {structuring : Structuring}

/-- The state a run starts from is proper. -/
theorem proper_ofGraph (sound : RegionGraph.Sound input)
    (accepted : Structuring.ofGraph config input = .ok structuring) :
    structuring.config = config ∧ structuring.finished = none ∧
      structuring.state.labels = [] ∧ structuring.state.duplicated = [] ∧
      (∃ entry, (input.successors root).eraseDups = [entry] ∧
        RegionGraph.Taken input entry input.size structuring.state.graph) ∧
      State.Proper config (RegionGraph.inputTargets input) structuring.state := by
  obtain ⟨graph, made, rfl⟩ := exists_graph_of_ofGraph accepted
  obtain ⟨entry, entries, _, taken⟩ := RegionGraph.taken_of_ofInput sound.joined made
  have isEntry : entry ∈ input.successors root :=
    List.mem_eraseDups.mp (by rw [entries]; simp)
  exact ⟨rfl, rfl, rfl, rfl, ⟨entry, entries, taken⟩, taken.wellFormed sound isEntry,
    taken.faithful sound.consistent fun v real => if_pos real, Nat.zero_le _⟩

/-- The tree of a run is that of the state it ends in. -/
theorem exists_final (sound : RegionGraph.Sound input)
    (accepted : Structuring.ofGraph config input = .ok structuring) {tree : Tree}
    (result : structuring.run.2.2 = .ok tree) :
    ∃ final entry, State.Reached config structuring.state final ∧
      final.finish? = some (.ok (final.tree entry)) ∧ tree = final.tree entry := by
  obtain ⟨sameConfig, unfinished, _, _, _, proper⟩ := proper_ofGraph sound accepted
  rw [Structuring.run, unfinished, sameConfig] at result
  change (structuring.state.run config).result = .ok tree at result
  cases proper.verdict_run with
  | completes reached finished isTree _ =>
      rw [isTree] at result
      exact ⟨_, _, reached, finished, (Except.ok.inj result).symm⟩
  | stalls _ _ isError =>
      rw [isError] at result
      cases result

/-- No request of a step is refused in any state of a run. -/
theorem requestAll_of_reached (sound : RegionGraph.Sound input)
    (accepted : Structuring.ofGraph config input = .ok structuring) {state : State}
    (reached : State.Reached config structuring.state state) {action : Action}
    (chosen : state.choose config = some action) :
    state.graph.requestAll (state.requests action) = .ok (state.perform action).1.graph := by
  obtain ⟨_, _, _, _, _, proper⟩ := proper_ofGraph sound accepted
  exact (proper.reached reached).requestAll_requests chosen

/-- No state of a run is idle when no vertex with a single target is marked as
a switch. -/
theorem not_idles (sound : RegionGraph.Sound input)
    (accepted : Structuring.ofGraph config input = .ok structuring)
    (oneTarget : ∀ v, (RegionGraph.inputTargets input v).length = 1 → config.multiway v = false)
    {state : State} (reached : State.Reached config structuring.state state) :
    ¬ State.Idles config state := by
  intro idles
  obtain ⟨_, _, _, _, _, proper⟩ := proper_ofGraph sound accepted
  obtain ⟨v, many, one⟩ := (proper.reached reached).exists_of_idles idles
  rw [oneTarget v one] at many
  cases many

/-- A vertex with one target has one edge: no vertex of an accepted graph has a
target and returns. -/
theorem one_edge_of_one_target (sound : RegionGraph.Sound input)
    (accepted : Structuring.ofGraph config input = .ok structuring) {v : Nat}
    (one : (RegionGraph.inputTargets input v).length = 1) :
    (input.payload? v).isSome = true ∧ (input.successors v).length = 1 := by
  obtain ⟨_, _, _, _, ⟨entry, entries, taken⟩, _⟩ := proper_ofGraph sound accepted
  obtain ⟨real, single⟩ := taken.length_successors_of_one_target one
  have someEdge : input.successors v ≠ [] := fun none => by
    rw [none] at single
    cases single
  obtain ⟨t, edge⟩ := List.exists_mem_of_ne_nil _ someEdge
  exact ⟨(sound.consistent.payloads v).mpr ⟨real, Digraph.lt_size_of_mem_neighbours edge⟩, single⟩

/-- Progress of a run from an accepted graph whose edges join vertices that are
not detached and whose root leads to a real vertex, when no vertex with a single
edge is marked as a switch: every state on the way is finished or takes a step;
no request of the step is refused, and it is one of at most `maxDuplications`
duplications or lowers the weight; and the run comes to a tree, with one live
region left that leads nowhere. -/
theorem run_progress (built : input.Built)
    (attached : ∀ {u v}, v ∈ input.successors u →
      input.isDetached u = false ∧ input.isDetached v = false)
    (rooted : ∀ v ∈ input.successors root, (input.payload? v).isSome = true)
    (accepted : Structuring.ofGraph config input = .ok structuring)
    (oneWay : ∀ v, (input.payload? v).isSome = true → (input.successors v).length = 1 →
      config.multiway v = false) :
    structuring.state.duplicated = [] ∧
    (∀ state, State.Reached config structuring.state state →
      state.duplicated.length ≤ config.maxDuplications ∧
      ((∃ tree, state.finish? = some (.ok tree)) ∨
        state.finish? = none ∧ ∃ action, state.choose config = some action ∧
          state.graph.requestAll (state.requests action) = .ok (state.perform action).1.graph ∧
          ((∃ region outside, action = .duplicate region outside ∧
              (state.perform action).1.duplicated.length = state.duplicated.length + 1) ∨
            (state.perform action).1.duplicated = state.duplicated ∧
              (state.perform action).1.graph.weight < state.graph.weight))) ∧
    ∃ final entry, State.Reached config structuring.state final ∧
      final.graph.liveCount = 1 ∧ final.graph.entry? = some entry ∧
      final.graph.branches entry = [] ∧ structuring.run.1.state = final ∧
      structuring.run.2.2 = .ok (final.tree entry) := by
  have sound : RegionGraph.Sound input :=
    ⟨built.consistent, attached, fun v edge =>
      ((built.consistent.payloads v).mp (rooted v edge)).1⟩
  have active {state : State} (reached : State.Reached config structuring.state state) :=
    not_idles sound accepted (fun v one =>
      have ⟨real, single⟩ := one_edge_of_one_target sound accepted one
      oneWay v real single) reached
  obtain ⟨sameConfig, unfinished, _, noDuplicate, _, proper⟩ := proper_ofGraph sound accepted
  refine ⟨noDuplicate, fun state reached => ?_, ?_⟩
  · have here := proper.reached reached
    refine ⟨here.bounded, ?_⟩
    cases isOpen : state.finish? with
    | some result =>
        obtain ⟨entry, rfl, _⟩ := here.finish?_eq isOpen
        exact .inl ⟨_, rfl⟩
    | none =>
        obtain ⟨action, chosen, progress⟩ := here.progress isOpen
        refine .inr ⟨rfl, action, chosen, requestAll_of_reached sound accepted reached chosen, ?_⟩
        rcases progress with ⟨region, outside, isDuplicate, longer, _⟩ | ⟨same, lighter | idle⟩
        · exact .inl ⟨region, outside, isDuplicate, longer⟩
        · exact .inr ⟨same, lighter.2⟩
        · exact absurd idle.1 (active reached)
  · have ran : structuring.run.1.state = (structuring.state.run config).state ∧
        structuring.run.2.2 = (structuring.state.run config).result := by
      unfold Structuring.run
      rw [unfinished, sameConfig]
      exact ⟨rfl, rfl⟩
    cases proper.verdict_run with
    | @completes entry reached finished result _ =>
        obtain ⟨entry', isTree, isEntry, single, noBranch⟩ :=
          (proper.reached reached).finish?_eq finished
        have sameEntry : entry = entry' := congrArg Tree.root (Except.ok.inj isTree)
        subst sameEntry
        exact ⟨_, entry, reached, single, isEntry, noBranch, ran.1, ran.2.trans result⟩
    | stalls reached idles result => exact absurd idles (active reached)

/-- Two loops that are entered and left in the middle of each other. -/
def entwined : Digraph Unit :=
  .ofEdges 5 [(0, 2), (2, 3), (2, 5), (3, 6), (3, 4), (4, 3), (4, 5), (5, 4), (6, 1)]

/-- An edge of the loops is cut and a region duplicated before they become a tree. -/
theorem run_progress_entwined :
    ∃ structuring : Structuring, Structuring.ofGraph {} entwined = .ok structuring ∧
      .cut ⟨4, 7, .irreducible⟩ 8 ∈ structuring.run.2.1 ∧
      .duplicated 9 1 ∈ structuring.run.2.1 ∧
      (∀ state, State.Reached {} structuring.state state → state.finish? = none →
        ∃ action, state.choose {} = some action ∧
          state.graph.requestAll (state.requests action) =
            .ok (state.perform action).1.graph) ∧
      ∃ (final : State) (entry : Nat), final.graph.liveCount = 1 ∧
        structuring.run.2.2 = .ok (final.tree entry) := by
  have built : entwined.Built := Digraph.built_ofEdges (by decide)
  have attached : ∀ u < entwined.size, ∀ v ∈ entwined.successors u,
      entwined.isDetached u = false ∧ entwined.isDetached v = false := by
    decide +kernel
  have reported : ((Structuring.ofGraph {} entwined).toOption.map fun structuring =>
      structuring.run.2.1.filter fun event =>
        event = .cut ⟨4, 7, .irreducible⟩ 8 ∨ event = .duplicated 9 1) =
        some [.cut ⟨4, 7, .irreducible⟩ 8, .duplicated 9 1] := by
    decide +kernel
  cases accepted : Structuring.ofGraph {} entwined with
  | error rejected =>
      rw [accepted] at reported
      cases reported
  | ok structuring =>
      rw [accepted] at reported
      have events := Option.some.inj reported
      have among {event : Event} (member : event ∈
          [Event.cut ⟨4, 7, .irreducible⟩ 8, .duplicated 9 1]) : event ∈ structuring.run.2.1 :=
        (List.mem_filter.mp (events ▸ member)).1
      obtain ⟨_, steps, final, entry, _, single, _, _, _, result⟩ := run_progress built
        (fun edge => attached _ (Digraph.lt_size_of_mem_neighbours edge) _ edge)
        (by decide +kernel) accepted (fun _ _ _ => rfl)
      refine ⟨structuring, rfl, among (by simp), among (by simp), fun state reached isOpen => ?_,
        final, entry, single, result⟩
      obtain ⟨_, ⟨tree, finished⟩ | ⟨_, action, chosen, granted, _⟩⟩ := steps state reached
      · rw [isOpen] at finished
        cases finished
      · exact ⟨action, chosen, granted⟩

end Structuring

end FlowRegions
