import FlowRegions.Structuring.OfRoutine
import FlowRegions.Proofs.Routine.Flow
import FlowRegions.Proofs.Structuring.Progress

/-!
Contract: which valid routines are structured.

The graph of a valid routine is accepted when it is small enough, whatever the
configuration.  With the hooks that its blocks suggest, structuring then comes
to a tree exactly when no state on the way chooses an idle collapse; blocks
that have a case list and a single target are what it takes for that.
-/

namespace FlowRegions.Routine

open FlowRegions.Digraph (root terminator)

variable {σ ε : Type} {routine : Routine σ ε}

def withLimits (maxVertices : Int) (maxDuplications : Nat) (duplicationSize : Int)
    (forLoops : Bool) (config : Config) : Config :=
  { config with maxVertices, maxDuplications, duplicationSize, forLoops }

section Valid

variable (valid : routine.fault? = none)
include valid

theorem sound_flow : RegionGraph.Sound routine.flow where
  consistent := consistent_flow valid
  attached := fun _ => ⟨isDetached_flow valid _, isDetached_flow valid _⟩
  rooted := by
    intro v edge
    rw [successors_root valid, List.mem_singleton] at edge
    omega

theorem liveCount_flow : routine.flow.liveCount = routine.blocks.size := by
  have live : routine.flow.liveIndices = (List.range routine.blocks.size).map (· + 2) := by
    rw [Digraph.liveIndices, Digraph.indices, size_flow valid, Nat.add_comm, List.range_add]
    have kept : ∀ v ∈ (List.range routine.blocks.size).map (2 + ·),
        routine.flow.isLive v = true := by
      intro v member
      obtain ⟨position, within, rfl⟩ := List.mem_map.mp member
      exact (consistent_flow valid).isLive_of_not_isDetached (Nat.le_add_right 2 _)
        (by rw [size_flow valid]; have := List.mem_range.mp within; omega)
        (isDetached_flow valid _)
    have synthetic : ∀ v < 2, routine.flow.isLive v = false := by
      intro v below
      cases isLive : routine.flow.isLive v with
      | false => rfl
      | true =>
          have := (consistent_flow valid).two_le_of_isLive isLive
          omega
    rw [List.filter_append, List.filter_eq_self.mpr kept]
    simp [List.range_succ, synthetic, Nat.add_comm]
  rw [Digraph.liveCount_eq, live, List.length_map, List.length_range]

/-- The graph of a valid routine is accepted when it is small enough. -/
theorem exists_ofGraph {config : Config}
    (small : (routine.blocks.size : Int) ≤ config.maxVertices) :
    ∃ structuring, Structuring.ofGraph config routine.flow = .ok structuring := by
  have entries : (routine.flow.successors root).eraseDups = [routine.entry.toNat + 2] := by
    rw [successors_root valid]
    simp [List.eraseDups_cons]
  obtain ⟨graph, accepted⟩ := RegionGraph.exists_ofInput (consistent_flow valid)
    (by rw [liveCount_flow valid]; exact small) entries
    (by simp only [terminator]; omega) fun v real => by
      by_cases within : v < routine.flow.size
      · rw [size_flow valid] at within
        obtain ⟨position, rfl⟩ : ∃ position, v = position + 2 := ⟨v - 2, by omega⟩
        have inRange : position < routine.blocks.size := by omega
        obtain ⟨block, isBlock⟩ := exists_block valid inRange
        rw [successors_block valid isBlock]
        rcases edgesOf_cases valid isBlock with ⟨_, edges⟩ | ⟨_, _, targets⟩
        · rw [edges]
          simp [root, terminator]
        · refine ⟨fun toRoot => ?_, fun returns => ?_⟩
          · have := (targets root toRoot).1
            simp only [root] at this
            omega
          · have := (targets terminator returns).1
            simp only [terminator] at this
            omega
      · have none : routine.flow.successors v = [] :=
          Digraph.neighbours_eq_nil_of_size_le .forward (Nat.not_lt.mp within)
        rw [none]
        simp
  exact ⟨_, by rw [Structuring.ofGraph, accepted]⟩

/-- A vertex with one target is a block with one target. -/
theorem exists_block_of_one_target {v : Nat}
    (one : (RegionGraph.inputTargets routine.flow v).length = 1) :
    ∃ position block, v = position + 2 ∧ routine.blocks[position]? = some (some block) ∧
      block.targets.length = 1 := by
  unfold RegionGraph.inputTargets at one
  split at one
  · rename_i real
    obtain ⟨position, rfl⟩ : ∃ position, v = position + 2 := ⟨v - 2, by omega⟩
    have within : position < routine.blocks.size := by
      by_contra beyond
      have none : routine.flow.successors (position + 2) = [] :=
        Digraph.neighbours_eq_nil_of_size_le .forward (by rw [size_flow valid]; omega)
      rw [none] at one
      cases one
    obtain ⟨block, isBlock⟩ := exists_block valid within
    refine ⟨position, block, rfl, isBlock, ?_⟩
    rw [successors_block valid isBlock] at one
    rcases edgesOf_cases valid isBlock with ⟨_, edges⟩ | ⟨_, edges, inRange⟩
    · rw [edges] at one
      cases one
    · have kept : (edgesOf block).filter (· != terminator) = edgesOf block :=
        List.filter_eq_self.mpr fun t isEdge => by
          have := (inRange t isEdge).1
          simp only [terminator, bne_iff_ne]
          omega
      rwa [kept, edges, List.length_map] at one
  · cases one

theorem structured_eq {config : Config} {adjust : Config → Config}
    (adjusted : adjust routine.config = config) {structuring : Structuring}
    (accepted : Structuring.ofGraph config routine.flow = .ok structuring) :
    (routine.structured adjust).2 =
      (structuring.state.run config).result.mapError (.failed routine.name) := by
  obtain ⟨sameConfig, unfinished, _⟩ := Structuring.proper_ofGraph (sound_flow valid) accepted
  rw [structured, Routine.graph, valid]
  dsimp only
  rw [adjusted, accepted]
  dsimp only
  rw [Structuring.run, unfinished, sameConfig]

/-- The graph of a routine that is structured is accepted, and its run comes to
the tree. -/
theorem exists_run_of_structured {adjust : Config → Config} {tree : Tree}
    (structured : (routine.structured adjust).2 = .ok tree) :
    ∃ start, Structuring.ofGraph (adjust routine.config) routine.flow = .ok start ∧
      start.run.2.2 = .ok tree := by
  rw [Routine.structured, Routine.graph, valid] at structured
  dsimp only at structured
  cases accepted : Structuring.ofGraph (adjust routine.config) routine.flow with
  | error rejected =>
      rw [accepted] at structured
      cases structured
  | ok start =>
      rw [accepted] at structured
      change start.run.2.2.mapError _ = .ok tree at structured
      refine ⟨start, rfl, ?_⟩
      cases result : start.run.2.2 with
      | error cause =>
          rw [result] at structured
          cases structured
      | ok built =>
          rw [result] at structured
          change (Except.ok built : Except StructuringError Tree) = .ok tree at structured
          rw [Except.ok.inj structured]

end Valid

/-- A valid routine within the limit, with the hooks its blocks suggest, is
structured exactly when no state on the way chooses an idle collapse, and fails
for lack of progress otherwise.  It is structured whenever no block with a case
list has a single target. -/
theorem structured_ok_iff (valid : routine.fault? = none) (maxVertices : Int)
    (maxDuplications : Nat) (duplicationSize : Int) (forLoops : Bool)
    (small : routine.blocks.size ≤ maxVertices) :
    ∃ start, Structuring.ofGraph
        (withLimits maxVertices maxDuplications duplicationSize forLoops routine.config)
        routine.flow = .ok start ∧
      ((∃ tree, (routine.structured
          (withLimits maxVertices maxDuplications duplicationSize forLoops)).2 = .ok tree) ↔
        ∀ state, State.Reached start.config start.state state →
          ¬ State.Idles start.config state) ∧
      (∀ error, (routine.structured
          (withLimits maxVertices maxDuplications duplicationSize forLoops)).2 = .error error →
        ∃ weight, error = .failed routine.name (.noProgress weight weight)) ∧
      ((∀ (position : Nat) (block : Block σ ε), routine.blocks[position]? = some (some block) →
          block.isMultiway = true → block.targets.length ≠ 1) →
        ∃ tree, (routine.structured
          (withLimits maxVertices maxDuplications duplicationSize forLoops)).2 = .ok tree) := by
  generalize isConfig : withLimits maxVertices maxDuplications duplicationSize forLoops
    routine.config = config
  have within : (routine.blocks.size : Int) ≤ config.maxVertices := by
    rw [← isConfig]
    exact small
  have sound := sound_flow valid
  obtain ⟨start, accepted⟩ := exists_ofGraph valid within
  have outcome := structured_eq valid isConfig accepted
  obtain ⟨sameConfig, _, _, _, _, proper⟩ := Structuring.proper_ofGraph sound accepted
  have decided : ((∃ tree, (routine.structured
      (withLimits maxVertices maxDuplications duplicationSize forLoops)).2 = .ok tree) ↔
        ∀ state, State.Reached config start.state state → ¬ State.Idles config state) := by
    rw [outcome]
    cases proper.verdict_run with
    | completes reached finished result active =>
        rw [result]
        exact ⟨fun _ => active, fun _ => ⟨_, rfl⟩⟩
    | stalls reached idles result =>
        rw [result]
        constructor
        · rintro ⟨tree, isTree⟩
          cases isTree
        · intro active
          exact absurd idles (active _ reached)
  refine ⟨start, accepted, by rw [sameConfig]; exact decided, ?_, ?_⟩
  · rw [outcome]
    cases proper.verdict_run with
    | completes reached finished result active =>
        rw [result]
        intro error isError
        cases isError
    | @stalls _ weight reached idles result =>
        rw [result]
        intro error isError
        cases isError
        exact ⟨weight, rfl⟩
  · intro branching
    refine decided.mpr fun state reached => ?_
    refine Structuring.not_idles sound accepted (fun v one => ?_) reached
    obtain ⟨position, block, rfl, isBlock, targets⟩ := exists_block_of_one_target valid one
    have hook : config.multiway = routine.blockHas Block.isMultiway := by
      rw [← isConfig]
      rfl
    rw [hook, blockHas, blockAt?, if_neg (by omega), Nat.add_sub_cancel, isBlock]
    cases many : block.isMultiway with
    | false => exact many
    | true => exact absurd targets (branching position block isBlock many)

/-- Four blocks around a two-way branch; the one at position 1, which has a
single target, may have a case list. -/
def diamond (cases : Option (List Nat)) : Routine String String where
  name := "diamond"
  entry := 0
  blocks := #[
    some { statements := ["start"], condition := some "test", targets := [1, 2], cases := none },
    some { statements := [], condition := none, targets := [3], cases },
    some { statements := [], condition := none, targets := [3], cases := none },
    some { statements := [], condition := none, targets := [], cases := none }]

/-- Without a case list the four blocks become a tree.  With one they do not:
some state on the way chooses an idle collapse. -/
theorem structured_ok_iff_diamond :
    (∃ tree, ((diamond none).structured (withLimits 65536 8 4 true)).2 = .ok tree) ∧
    (diamond (some [5])).fault? = none ∧
    ((diamond (some [5])).structured (withLimits 65536 8 4 true)).2 =
      .error (.failed "diamond" (.noProgress 12 12)) ∧
    ∃ start state, Structuring.ofGraph (withLimits 65536 8 4 true (diamond (some [5])).config)
        (diamond (some [5])).flow = .ok start ∧
      State.Reached start.config start.state state ∧ State.Idles start.config state := by
  have fails : ((diamond (some [5])).structured (withLimits 65536 8 4 true)).2 =
      .error (.failed "diamond" (.noProgress 12 12)) := by decide +kernel
  refine ⟨?_, by decide +kernel, fails, ?_⟩
  · have valid : (diamond none).fault? = none := by decide +kernel
    obtain ⟨_, _, _, _, succeeds⟩ := structured_ok_iff valid 65536 8 4 true (by decide +kernel)
    refine succeeds fun position block isBlock many => ?_
    have noCases : ∀ position < 4, ∀ found ∈ (diamond none).blocks[position]?,
        found.any Block.isMultiway = false := by decide +kernel
    have within : position < 4 := (Array.getElem?_eq_some_iff.mp isBlock).1
    have := noCases position within _ isBlock
    simp [many] at this
  · have valid : (diamond (some [5])).fault? = none := by decide +kernel
    obtain ⟨start, accepted, exactly, _⟩ :=
      structured_ok_iff valid 65536 8 4 true (by decide +kernel)
    by_contra never
    obtain ⟨tree, isTree⟩ := exactly.mpr fun state reached idles =>
      never ⟨start, state, accepted, reached, idles⟩
    rw [fails] at isTree
    cases isTree

end FlowRegions.Routine
