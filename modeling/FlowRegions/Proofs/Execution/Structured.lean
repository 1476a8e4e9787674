import FlowRegions.Proofs.Execution.Composition
import FlowRegions.Proofs.Execution.Simulation
import FlowRegions.Proofs.Structuring.Routines

/-!
Contract: structuring preserves execution.

Every state of a run of structuring keeps its regions wired, its labels in
place and its start where the flow starts.  So the tree it comes to is wired,
and running the tree visits the blocks that following the targets visits, in
the same order and for as long.

Owns:
- `State.Traceable`, what every state of a run keeps;
- `Routine.visits`, the blocks that a routine visits, and `Routine.behaviour`,
  the same decisions asked by vertex;
- `Routine.structured_executes`, the preservation theorem.
-/

namespace FlowRegions

open FlowRegions.Digraph (root terminator)

/-! ## Runs of structuring -/

def RegionGraph.start? (graph : RegionGraph) : Option Nat :=
  (graph.branches root).head?.bind graph.firstVertex?

namespace State

variable {config : Config} {targets : Nat → List Nat} {entry : Nat} {state later : State}
  {action : Action}

structure Traceable (config : Config) (targets : Nat → List Nat) (entry : Nat) (state : State) :
    Prop where
  proper : Proper config targets state
  runnable : ∃ follow, RegionGraph.Runnable targets follow state.graph
  labelled : RegionGraph.Labelled state.labels state.graph
  early : state.labels = [] ∨ state.graph.AllReached
  start : state.graph.start? = some entry

/-- A legal step keeps where the flow starts. -/
theorem Legal.keeps_start (wellFormed : state.graph.WellFormed)
    (legal : Legal config state action) :
    (state.perform action).1.graph.start? = state.graph.start? := by
  have after := legal.keeps_wellFormed wellFormed
  have notLive := wellFormed.root_not_live
  have within : root < state.graph.size := by
    have := wellFormed.consistent.atLeastTwo
    simp only [root]
    omega
  cases legal with
  | @prune regions someStray strayIff =>
      refine ((RegionGraph.pruned_isolateAll wellFormed.consistent regions).redirected_old
        wellFormed (fun stray => ?_) fun t edge stray => ?_).start_eq
      · have live := ((strayIff root).mp stray).1
        rw [notLive] at live
        cases live
      · exact ((strayIff t).mp stray).2 ((Digraph.Reaches.refl root).edge edge)
  | collapse all live found =>
      have fits := found.fits wellFormed live
      have collapsed := RegionGraph.collapsed_collapse wellFormed fits
      exact (collapsed.redirected_old wellFormed fits
        (found.firstVertex?_new wellFormed live collapsed) within
        (fits.root_notMem wellFormed)).start_eq
  | duplicate all few live entering =>
      exact ((RegionGraph.copied_giveCopy wellFormed.consistent (Digraph.lt_size_of_isLive live)
        entering).redirected_old wellFormed after live within).start_eq
  | @cut source target other reason all live edge =>
      exact ((RegionGraph.severed_redirect wellFormed.consistent source target).redirected_old
        wellFormed after (wellFormed.isLive_of_mem_exits edge)).start_eq

namespace Traceable

theorem step (traceable : Traceable config targets entry state)
    (steps : Steps config state later) : Traceable config targets entry later := by
  have proper := traceable.proper.step steps
  obtain ⟨_, action, chosen, rfl⟩ := steps
  have wellFormed := traceable.proper.wellFormed
  have legal := legal_of_choose wellFormed chosen
  obtain ⟨follow, runnable⟩ := traceable.runnable
  exact
    { proper
      runnable := legal.keeps_runnable wellFormed traceable.proper.faithful runnable
      labelled := legal.keeps_labelled wellFormed traceable.labelled traceable.early
      early := .inr (legal.allReached wellFormed)
      start := (legal.keeps_start wellFormed).trans traceable.start }

theorem reached (traceable : Traceable config targets entry state)
    (reached : Reached config state later) : Traceable config targets entry later := by
  induction reached with
  | refl => exact traceable
  | tail _ steps inductionHypothesis => exact inductionHypothesis.step steps

end Traceable

/-! ## The tree of a run -/

theorem layout_tree (state : State) (e : Nat) (targets : Nat → List Nat)
    (follow : Nat → Option Nat) :
    (state.tree e).layout targets follow = state.graph.layout targets follow := by
  unfold Tree.layout RegionGraph.layout RegionGraph.firstVertex? RegionGraph.branchingVertex?
  rw [table_tree, size_tree]

/-- The tree a run comes to is wired. -/
theorem Traceable.wired_tree (traceable : Traceable config targets entry state)
    {result : Except RunError Tree} (finished : state.finish? = some result) :
    ∃ tree follow, result = .ok tree ∧ Tree.Wired targets follow entry tree := by
  have wellFormed := traceable.proper.wellFormed
  obtain ⟨e, rfl, isEntry, single, noBranch⟩ := traceable.proper.finish?_eq finished
  obtain ⟨e', isEntry', edges, live, _⟩ := wellFormed.entry?_eq
  obtain rfl : e' = e := Option.some.inj (isEntry'.symm.trans isEntry)
  obtain ⟨follow, runnable⟩ := traceable.runnable
  refine ⟨_, follow, rfl, ?_⟩
  refine
    { nested := by rw [table_tree]; exact wellFormed.nested
      regions := fun {i node} found => by
        rw [table_tree] at found
        rw [layout_tree]
        exact runnable.wired found
      starts := ?_
      ends := ?_
      jumps := fun {i target cond} isJump => ?_ }
  · rw [layout_tree]
    have start := traceable.start
    rw [RegionGraph.start?, RegionGraph.branches, edges] at start
    change state.graph.firstVertex? e' = some entry
    simpa [wellFormed.ne_terminator_of_isLive live] using start
  · rw [layout_tree]
    intro pending w leaves
    obtain ⟨t, isBranch, _⟩ := runnable.lands (traceable.proper.faithful.ending live) live
      (by rw [noBranch]; simp) leaves
    rw [noBranch] at isBranch
    cases isBranch
  · rw [table_tree] at isJump
    rw [layout_tree]
    obtain ⟨w, isLabel, first⟩ := traceable.labelled.jumps isJump
    -- The entry is all that is live, so it holds every label.
    obtain ⟨v, vLive, isLeaf⟩ := traceable.labelled.held w isLabel
    refine ⟨w, ?_, first⟩
    change w ∈ (state.tree e').table.leaves (state.tree e').nodes.size e'
    rw [table_tree, size_tree, ← eq_of_isLive single live vLive]
    exact isLeaf

end State

/-- The state a run starts from is traceable. -/
theorem Structuring.traceable_ofGraph {α : Type} {config : Config} {input : Digraph α}
    {structuring : Structuring} (sound : RegionGraph.Sound input)
    (accepted : Structuring.ofGraph config input = .ok structuring) :
    ∃ entry, (input.successors root).eraseDups = [entry] ∧
      State.Traceable config (RegionGraph.inputTargets input) entry structuring.state := by
  obtain ⟨_, _, noLabels, _, ⟨entry, entries, taken⟩, proper⟩ :=
    proper_ofGraph sound accepted
  have wellFormed := proper.wellFormed
  have firstIs {v : Nat} (live : structuring.state.graph.isLive v = true) :
      structuring.state.graph.firstVertex? v = some v := by
    obtain ⟨real, within, _⟩ := (taken.isLive_iff v).mp live
    exact taken.firstVertex?_eq real within
  refine ⟨entry, entries, proper,
    ⟨fun _ => none, fun {i node} found => ?_, fun {v} live none => ?_⟩,
    ⟨fun {i target cond} isJump => ?_, ?_, fun {v} live _ => ?_⟩, .inl noLabels, ?_⟩
  · rw [taken.node_eq found]
    exact .leaf
  · obtain ⟨real, within, _⟩ := (taken.isLive_iff v).mp live
    rw [taken.branchingVertex?_eq real within] at none
    cases none
  · cases taken.node_eq isJump
  · rw [noLabels]
    simp
  · obtain ⟨real, within, _⟩ := (taken.isLive_iff v).mp live
    exact ⟨v, (wellFormed.mem_leaves (taken.table_leaf real within)).mpr (.inl rfl),
      firstIs live⟩
  · obtain ⟨e, edges, live, _⟩ := wellFormed.entry
    have same : e = entry := by
      rw [taken.successors_eq, if_pos rfl] at edges
      exact (List.singleton_inj.mp edges).symm
    subst same
    rw [RegionGraph.start?, RegionGraph.branches, edges]
    simp [wellFormed.ne_terminator_of_isLive live, firstIs live]

/-! ## Routines -/

namespace Routine

variable {σ ε : Type}

/-- The blocks that a routine visits from the block at a position on, at most a
number of them, behind those visited before: the target to go to is at the
position that `decide` gives for the visits so far, and a block without targets
is the last one. -/
def visits (routine : Routine σ ε) (decide : Int → Nat → Nat) : Nat → List Int → Int → List Int
  | 0, trace, _ => trace
  | limit + 1, trace, position =>
    let target? := (routine.blocks[position.toNat]?).join.bind fun block =>
      block.targets[decide position (trace.count position)]?
    match target? with
    | none => trace ++ [position]
    | some target => routine.visits decide limit (trace ++ [position]) target

def behaviour (routine : Routine σ ε) (decide : Int → Nat → Nat) : Behaviour where
  targets v :=
    match routine.blockAt? v with
    | some block => block.targets.map fun target => vertexAt target.toNat
    | none => []
  decide v := decide (blockOfVertex v)

def Decides (routine : Routine σ ε) (decide : Int → Nat → Nat) : Prop :=
  ∀ (position : Nat) (block : Block σ ε), routine.blocks[position]? = some (some block) →
    block.targets ≠ [] → ∀ k, decide position k < block.targets.length

variable {routine : Routine σ ε} {decide : Int → Nat → Nat}

theorem blockOfVertex_vertexAt (position : Nat) :
    blockOfVertex (vertexAt position : Nat) = position := by
  have isVertex : ((vertexAt position : Nat) : Int) = position + 2 := rfl
  rw [isVertex, blockOfVertex, if_neg (by omega), Int.add_sub_cancel]

theorem behaviour_decides (decides : routine.Decides decide) :
    (routine.behaviour decide).Decides := by
  intro v k someTarget
  unfold behaviour at someTarget ⊢
  dsimp only at someTarget ⊢
  split at someTarget
  · rename_i block isBlock
    rw [blockAt?] at isBlock
    split at isBlock
    · cases isBlock
    · rename_i real
      obtain ⟨position, rfl⟩ : ∃ position, v = vertexAt position :=
        ⟨v - 2, by rw [vertexAt]; omega⟩
      rw [List.length_map, blockOfVertex_vertexAt]
      exact decides position block (Option.join_eq_some_iff.mp isBlock)
        (fun none => someTarget (by rw [none]; rfl)) k
  · exact absurd rfl someTarget

theorem targets_behaviour {position : Nat} {block : Block σ ε}
    (isBlock : routine.blocks[position]? = some (some block)) :
    (routine.behaviour decide).targets (vertexAt position) =
      block.targets.map fun target => vertexAt target.toNat := by
  simp [behaviour, blockAt?, vertexAt, isBlock]

section Valid

variable (valid : routine.fault? = none)
include valid

/-- The targets of the flow are those of the blocks. -/
theorem inputTargets_flow (decide : Int → Nat → Nat) :
    RegionGraph.inputTargets routine.flow = (routine.behaviour decide).targets := by
  funext v
  unfold RegionGraph.inputTargets
  by_cases real : 2 ≤ v
  · obtain ⟨position, rfl⟩ : ∃ position, v = position + 2 := ⟨v - 2, by omega⟩
    rw [if_pos real]
    by_cases within : position < routine.blocks.size
    · obtain ⟨block, isBlock⟩ := exists_block valid within
      refine Eq.trans ?_ (targets_behaviour isBlock).symm
      rw [successors_block valid isBlock]
      rcases edgesOf_cases valid isBlock with ⟨noTargets, edges⟩ | ⟨_, edges, inRange⟩
      · rw [edges, noTargets]
        rfl
      · rw [List.filter_eq_self.mpr, edges]
        · rfl
        · intro t isEdge
          have := (inRange t isEdge).1
          simp only [terminator, bne_iff_ne]
          omega
    · have none : routine.flow.successors (position + 2) = [] :=
        Digraph.neighbours_eq_nil_of_size_le .forward (by rw [size_flow valid]; omega)
      rw [none]
      simp [behaviour, blockAt?, Array.getElem?_eq_none (Nat.not_lt.mp within)]
  · have none : routine.blockAt? v = none := if_pos (Nat.not_le.mp real)
    rw [if_neg real]
    simp [behaviour, none]

/-- Following the targets of vertices visits the blocks that the routine
visits. -/
theorem visits_eq (decide : Int → Nat → Nat) (limit : Nat) (trace : List Nat) (position : Nat)
    (within : position < routine.blocks.size) :
    ((routine.behaviour decide).visits limit (trace.map vertexAt)
        (some (vertexAt position))).map (fun (v : Nat) => blockOfVertex v) =
      routine.visits decide limit (trace.map Int.ofNat) position := by
  have vertices (trace : List Nat) :
      (trace.map vertexAt).map (fun (v : Nat) => blockOfVertex v) = trace.map Int.ofNat := by
    rw [List.map_map]
    exact List.map_congr_left fun b _ => blockOfVertex_vertexAt b
  induction limit generalizing trace position with
  | zero => exact vertices trace
  | succ limit inductionHypothesis =>
      obtain ⟨block, isBlock⟩ := exists_block valid within
      have counts : (trace.map vertexAt).count (vertexAt position) =
          (trace.map Int.ofNat).count (position : Int) := by
        rw [List.count_map_of_injective _ _ (fun a b same => by simpa [vertexAt] using same),
          ← List.count_map_of_injective trace Int.ofNat (fun a b same => Int.ofNat.inj same)]
        rfl
      have next : (routine.behaviour decide).next? (trace.map vertexAt) (vertexAt position) =
          (block.targets[decide position ((trace.map Int.ofNat).count (position : Int))]?).map
            fun target => vertexAt target.toNat := by
        have isDecision : (routine.behaviour decide).decide (vertexAt position) =
            decide position := congrArg decide (blockOfVertex_vertexAt position)
        rw [Behaviour.next?, targets_behaviour isBlock, isDecision, counts, List.getElem?_map]
      rw [Behaviour.visits, next, visits]
      simp only [Int.toNat_natCast, isBlock, Option.join_some, Option.bind_some]
      have longer : trace.map vertexAt ++ [vertexAt position] =
          (trace ++ [position]).map vertexAt := by simp
      have longer' : trace.map Int.ofNat ++ [(position : Int)] =
          (trace ++ [position]).map Int.ofNat := by simp
      rw [longer, longer']
      cases found : block.targets[decide position
          ((trace.map Int.ofNat).count (position : Int))]? with
      | none =>
          rw [Option.map_none, ← vertices]
          cases limit <;> rfl
      | some target =>
          have named := (names_iff target).mp
            (target_named valid isBlock (List.mem_of_getElem? found))
          have step := inductionHypothesis (trace ++ [position]) target.toNat named.2
          rw [Int.toNat_of_nonneg named.1] at step
          exact step

end Valid

/-- Structuring preserves execution: whatever the configuration, the first
blocks that the tree of a valid routine visits are the first blocks that the
routine visits, any number of them and for all decisions. -/
theorem structured_executes (valid : routine.fault? = none) (adjust : Config → Config)
    {tree : Tree} (structured : (routine.structured adjust).2 = .ok tree)
    (decides : routine.Decides decide) (n : Nat) :
    ∃ enough, ∀ steps, enough ≤ steps →
      ((tree.execute (routine.behaviour decide) steps).journey.trace.map
          fun (v : Nat) => blockOfVertex v).take n =
        routine.visits decide n [] routine.entry := by
  have sound := sound_flow valid
  obtain ⟨start, accepted⟩ :
      ∃ start, Structuring.ofGraph (adjust routine.config) routine.flow = .ok start := by
    rw [Routine.structured, Routine.graph, valid] at structured
    dsimp only at structured
    cases accepted : Structuring.ofGraph (adjust routine.config) routine.flow with
    | ok start => exact ⟨start, rfl⟩
    | error rejected =>
        rw [accepted] at structured
        cases structured
  rw [structured_eq valid rfl accepted] at structured
  obtain ⟨entry, entries, traceable⟩ := Structuring.traceable_ofGraph sound accepted
  have isEntry : entry = vertexAt routine.entry.toNat := by
    rw [successors_root valid] at entries
    simpa [List.eraseDups_cons, eq_comm, vertexAt] using entries
  obtain ⟨follow, wired⟩ : ∃ follow,
      Tree.Wired (RegionGraph.inputTargets routine.flow) follow entry tree := by
    cases traceable.proper.verdict_run with
    | completes reached finished result _ =>
        obtain ⟨built, follow, isBuilt, wired⟩ := (traceable.reached reached).wired_tree finished
        rw [result] at structured
        cases isBuilt
        cases structured
        exact ⟨follow, wired⟩
    | stalls _ _ result =>
        rw [result] at structured
        cases structured
  rw [inputTargets_flow valid decide, isEntry] at wired
  obtain ⟨enough, visited⟩ := wired.execute_eq_visits (behaviour_decides decides) n
  refine ⟨enough, fun steps le => ?_⟩
  have named := (names_iff routine.entry).mp (entry_named valid)
  have followed := visits_eq valid decide n [] routine.entry.toNat named.2
  rw [Int.toNat_of_nonneg named.1] at followed
  rw [← List.map_take, visited steps le]
  exact followed

/-- A loop with two entries, at the blocks at positions 1 and 2. -/
def twoEntries : Routine Unit Unit where
  name := "two entries"
  entry := 0
  blocks := #[
    some { statements := [()], condition := some (), targets := [1, 2], cases := none },
    some { statements := [()], condition := none, targets := [2], cases := none },
    some { statements := [()], condition := some (), targets := [1, 3], cases := none },
    some { statements := [()], condition := none, targets := [], cases := none }]

def alternate (position : Int) (k : Nat) : Nat :=
  if position = 1 then 0 else k % 2

/-- Its tree jumps when no region may be duplicated, and goes around the loop as
often as the decisions say. -/
theorem structured_executes_two_entries :
    ∃ tree, (twoEntries.structured ({ · with maxDuplications := 0 })).2 = .ok tree ∧
      tree.jumps ≠ [] ∧
      ∃ enough, ∀ steps, enough ≤ steps →
        ((tree.execute (twoEntries.behaviour alternate) steps).journey.trace.map
            fun (v : Nat) => blockOfVertex v).take 9 = [0, 1, 2, 1, 2, 3] := by
  have jumps : ((twoEntries.structured ({ · with maxDuplications := 0 })).2.toOption.any
      (!·.jumps.isEmpty)) = true := by decide +kernel
  cases isTree : (twoEntries.structured ({ · with maxDuplications := 0 })).2 with
  | error cause =>
      rw [isTree] at jumps
      cases jumps
  | ok tree =>
      rw [isTree] at jumps
      have visited : twoEntries.visits alternate 9 [] twoEntries.entry = [0, 1, 2, 1, 2, 3] := by
        decide +kernel
      refine ⟨tree, rfl, by simpa [Except.toOption] using jumps, ?_⟩
      rw [← visited]
      refine structured_executes (by decide +kernel) _ isTree (fun position block isBlock => ?_) 9
      have within : position < 4 := (Array.getElem?_eq_some_iff.mp isBlock).1
      match position, within with
      | 0, _ | 2, _ =>
          cases isBlock
          intro _ k
          exact Nat.mod_lt k Nat.two_pos
      | 1, _ =>
          cases isBlock
          intro _ k
          exact Nat.one_pos
      | 3, _ =>
          cases isBlock
          intro someTarget
          exact absurd rfl someTarget

end Routine

end FlowRegions
