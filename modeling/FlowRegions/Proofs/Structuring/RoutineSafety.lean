import FlowRegions.Proofs.Routine.Building
import FlowRegions.Proofs.Structuring.CheckedSteps
import FlowRegions.Proofs.Structuring.References
import FlowRegions.Proofs.Structuring.Routines

/-!
Contract: structuring a routine fails in three ways only.

A routine may be invalid, its graph may be too large, and a run may make no progress.
Nothing else goes wrong: the graph of a valid routine mirrors it and has the form that is
asked of a graph; every index that building, taking over and performing steps hand to a
graph names a vertex; the root leads to a region whenever it is asked for one; regions
that are not leaves or jumps have parts; and what is asked about a vertex of the input is
asked about one that has a block.

Owns:
- `State.Safe`, and that every state of a run from a routine is safe;
- `Routine.structured_fails_three_ways`.
-/

namespace FlowRegions

open FlowRegions.Digraph (root terminator)

/-! ## Vertices that are asked about -/

/-- The vertex that ends a region is that of a leaf. -/
theorem NodeTable.exists_leaf_of_branchingVertex? {table : NodeTable} {fuel i w : Nat}
    (isVertex : table.branchingVertex? fuel i = some w) :
    ∃ j cond, table j = some ⟨.leaf w, cond⟩ := by
  induction fuel generalizing i with
  | zero => cases isVertex
  | succ fuel inductionHypothesis =>
      rw [branchingVertex?] at isVertex
      cases found : table i with
      | none =>
          rw [found] at isVertex
          cases isVertex
      | some node =>
          rw [found] at isVertex
          obtain ⟨shape, cond⟩ := node
          cases shape with
          | leaf vertex =>
              cases isVertex
              exact ⟨i, cond, found⟩
          | seq nodes =>
              obtain ⟨last, _, isLast⟩ := Option.bind_eq_some_iff.mp isVertex
              exact inductionHypothesis isLast
          | tail body => exact inductionHypothesis isVertex
          | _ => cases isVertex

namespace State

variable {config : Config} {targets : Nat → List Nat} {state : State} {bound : Nat}

/-- A state in which nothing is asked in vain: edges stay within the graph, regions refer
to earlier ones and have parts, the root leads to a region, no request of the next step or
of a copy that is given on trial is refused, and hooks are asked about vertices of the input
only. -/
structure Safe (isVertex : Nat → Prop) (config : Config) (state : State) : Prop where
  consistent : state.graph.Consistent
  nested : state.graph.table.Nested
  entered : ∃ e, state.graph.entry? = some e
  granted : ∀ action, state.choose config = some action →
    state.graph.requestAll (state.requests action) = .ok (state.perform action).1.graph
  tried : ∀ v outside, state.graph.isLive v = true →
    (∀ p ∈ outside, v ∈ state.graph.successors p) →
    state.graph.requestAll (state.graph.copyRequests v outside) =
      .ok (state.graph.giveCopy v outside)
  asked : ∀ v w, state.graph.branchingVertex? v = some w ∨
    (state.graph.table v).bind Node.leafVertex? = some w → isVertex w

/-- A proper state is safe when its leaves are vertices of the input. -/
theorem Proper.safe {isVertex : Nat → Prop} (proper : Proper config targets state)
    (grounded : state.graph.table.Grounded bound)
    (isInput : ∀ w, 2 ≤ w → w < bound → isVertex w) : Safe isVertex config state where
  consistent := proper.wellFormed.consistent
  nested := proper.wellFormed.nested
  entered := by
    obtain ⟨e, isEntry, _⟩ := proper.wellFormed.entry?_eq
    exact ⟨e, isEntry⟩
  granted := fun _ chosen => proper.requestAll_requests chosen
  tried := fun _ _ live entering =>
    RegionGraph.requestAll_giveCopy proper.wellFormed.consistent (Digraph.lt_size_of_isLive live)
      entering
  asked := by
    rintro v w (isLast | isLeaf)
    · obtain ⟨i, cond, found⟩ := NodeTable.exists_leaf_of_branchingVertex? isLast
      obtain ⟨real, within⟩ := grounded.vertices found
      exact isInput w real within
    · obtain ⟨node, found, isLeaf⟩ := Option.bind_eq_some_iff.mp isLeaf
      obtain ⟨cond, rfl⟩ := Node.exists_leaf_of_leafVertex? isLeaf
      obtain ⟨real, within⟩ := grounded.vertices found
      exact isInput w real within

end State

/-! ## Routines -/

namespace Routine

variable {σ ε : Type} {routine : Routine σ ε}

/-- In a routine that fits 64-bit indices, the vertex of a block does not wrap around. -/
theorem vertexOfBlock_eq {position : Int} (named : routine.names position = true)
    (fits : routine.blocks.size + 2 ≤ 2 ^ 63) : vertexOfBlock position = position.toNat + 2 := by
  obtain ⟨nonneg, within⟩ := (names_iff position).mp named
  rw [vertexOfBlock, wrap64, Int.bmod_eq_of_le (by omega) (by omega)]
  omega

section Valid

variable (valid : routine.fault? = none)
include valid

theorem isSome_blockAt? {w : Nat} (real : 2 ≤ w) (within : w < routine.flow.size) :
    (routine.blockAt? w).isSome = true := by
  rw [size_flow valid] at within
  obtain ⟨block, isBlock⟩ := exists_block valid (show w - 2 < routine.blocks.size by omega)
  rw [blockAt?, if_neg (by omega), isBlock]
  rfl

variable {config : Config} {start : Structuring}

theorem safe_of_reached (accepted : Structuring.ofGraph config routine.flow = .ok start)
    {state : State} (reached : State.Reached config start.state state) :
    State.Safe (fun w => (routine.blockAt? w).isSome = true) config state := by
  obtain ⟨_, _, _, _, _, proper⟩ := Structuring.proper_ofGraph (sound_flow valid) accepted
  exact (proper.reached reached).safe
    (Structuring.grounded_of_reached (built_flow valid) accepted reached)
    fun w => isSome_blockAt? valid

/-- The graph of a valid routine is rejected for its size only. -/
theorem ofGraph_cases (config : Config) :
    (∃ start, Structuring.ofGraph config routine.flow = .ok start) ∨
      config.maxVertices < routine.blocks.size ∧
        Structuring.ofGraph config routine.flow =
          .error (.tooLarge routine.blocks.size config.maxVertices) := by
  by_cases small : (routine.blocks.size : Int) ≤ config.maxVertices
  · exact .inl (exists_ofGraph valid small)
  · refine .inr ⟨by omega, ?_⟩
    rw [Structuring.ofGraph, RegionGraph.ofInput, liveCount_flow valid, if_pos (by omega)]

/-- A run from a valid routine fails for lack of progress only. -/
theorem error_of_accepted {adjust : Config → Config} {cause : StructuringError}
    (accepted : Structuring.ofGraph (adjust routine.config) routine.flow = .ok start)
    (failed : (routine.structured adjust).2 = .error cause) :
    ∃ weight, cause = .failed routine.name (.noProgress weight weight) := by
  obtain ⟨_, _, _, _, _, proper⟩ := Structuring.proper_ofGraph (sound_flow valid) accepted
  rw [structured_eq valid rfl accepted] at failed
  cases proper.verdict_run with
  | completes reached finished result active =>
      rw [result] at failed
      cases failed
  | @stalls _ weight reached idles result =>
      rw [result] at failed
      cases failed
      exact ⟨weight, rfl⟩

end Valid

theorem graph_eq_ok_iff {graph : Digraph (Block σ ε)} :
    routine.graph = .ok graph ↔ routine.fault? = none ∧ graph = routine.flow := by
  unfold Routine.graph
  cases routine.fault? with
  | none => simp [eq_comm]
  | some fault => simp

/-- A routine has a graph exactly when it is valid.  The graph is built without a refused
request, mirrors the routine, and is accepted when it is small enough; vertex numbers do
not wrap around.  Taking the graph over refuses nothing either, and every state on the way
is safe, whatever the configuration.  So structuring fails in three ways only: the routine
is invalid, it is too large, or a run makes no progress. -/
theorem structured_fails_three_ways (routine : Routine σ ε) :
    ((∃ graph, routine.graph = .ok graph) ↔ routine.fault? = none) ∧
    (∀ graph, routine.graph = .ok graph →
      Digraph.empty.requestAll routine.requests = .ok graph ∧ routine.Mirrored graph ∧
      ∀ config : Config, (routine.blocks.size : Int) ≤ config.maxVertices →
        ∃ start, Structuring.ofGraph config graph = .ok start) ∧
    (∀ position, routine.names position = true → routine.blocks.size + 2 ≤ 2 ^ 63 →
      vertexOfBlock position = position.toNat + 2) ∧
    (∀ (adjust : Config → Config) graph start, routine.graph = .ok graph →
      Structuring.ofGraph (adjust routine.config) graph = .ok start →
      Digraph.empty.requestAll (RegionGraph.startRequests graph) = .ok start.state.graph ∧
      ∀ state, State.Reached (adjust routine.config) start.state state →
        State.Safe (fun w => (routine.blockAt? w).isSome = true) (adjust routine.config) state) ∧
    ∀ (adjust : Config → Config) cause, (routine.structured adjust).2 = .error cause →
      (∃ fault, routine.fault? = some fault ∧ cause = .invalidRoutine routine.name fault) ∨
      ((adjust routine.config).maxVertices < routine.blocks.size ∧
        cause = .rejected routine.name
          (.tooLarge routine.blocks.size (adjust routine.config).maxVertices)) ∨
      ∃ weight, cause = .failed routine.name (.noProgress weight weight) := by
  refine ⟨?_, ?_, fun position => vertexOfBlock_eq, ?_, ?_⟩
  · simp only [graph_eq_ok_iff, exists_and_left, exists_eq, and_true]
  · intro graph isGraph
    obtain ⟨valid, rfl⟩ := graph_eq_ok_iff.mp isGraph
    exact ⟨requestAll_requests valid, mirrored_flow valid, fun config => exists_ofGraph valid⟩
  · intro adjust graph start isGraph accepted
    obtain ⟨valid, rfl⟩ := graph_eq_ok_iff.mp isGraph
    obtain ⟨taken, made, isStart⟩ := Structuring.exists_graph_of_ofGraph accepted
    refine ⟨?_, fun state => safe_of_reached valid accepted⟩
    rw [isStart]
    exact RegionGraph.requestAll_startRequests (consistent_flow valid) made
  · intro adjust cause failed
    cases verdict : routine.fault? with
    | some fault =>
        rw [structured, Routine.graph, verdict] at failed
        cases failed
        exact .inl ⟨fault, rfl, rfl⟩
    | none =>
        refine .inr ?_
        rcases ofGraph_cases verdict (adjust routine.config) with
          ⟨start, accepted⟩ | ⟨large, rejected⟩
        · exact .inr (error_of_accepted verdict accepted failed)
        · rw [structured, Routine.graph, verdict] at failed
          dsimp only at failed
          rw [rejected] at failed
          cases failed
          exact .inl ⟨large, rfl⟩

/-- Each of the three occurs.  Where the run makes no progress, the graph has six vertices
and is accepted, and the run starts from a safe state. -/
theorem structured_fails_three_ways_diamond :
    ((diamond (some [])).structured id).2 =
      .error (.invalidRoutine "diamond" (.caseCount 1 0 1)) ∧
    ((diamond none).structured (withLimits 3 8 4 true)).2 =
      .error (.rejected "diamond" (.tooLarge 4 3)) ∧
    ((diamond (some [5])).structured id).2 = .error (.failed "diamond" (.noProgress 12 12)) ∧
    ∃ graph start, (diamond (some [5])).graph = .ok graph ∧ graph.size = 6 ∧
      Structuring.ofGraph (diamond (some [5])).config graph = .ok start ∧
      State.Safe (fun w => ((diamond (some [5])).blockAt? w).isSome = true)
        (diamond (some [5])).config start.state := by
  refine ⟨by decide +kernel, by decide +kernel, by decide +kernel, ?_⟩
  obtain ⟨exactly, graphs, _, runs, _⟩ := structured_fails_three_ways (diamond (some [5]))
  obtain ⟨graph, isGraph⟩ := exactly.mpr (by decide +kernel)
  obtain ⟨_, mirrored, accepts⟩ := graphs graph isGraph
  obtain ⟨start, accepted⟩ := accepts (diamond (some [5])).config (by decide +kernel)
  obtain ⟨_, safe⟩ := runs id graph start isGraph accepted
  exact ⟨graph, start, isGraph, mirrored.size_eq, accepted, safe start.state .refl⟩

end Routine

end FlowRegions
