import FlowRegions.Proofs.Renaming.Starts
import FlowRegions.Proofs.Renaming.Trees

/-!
Contract: the tree of a routine does not depend on how its blocks are numbered.

Two routines whose reachable blocks differ in numbering only are structured alike:
both or neither come to a tree, and the tree of the one is that of the other with
the vertices renamed.  Regions are numbered as they are made, behind the blocks, so
their numbers may differ.  Blocks that are not reached play no part.

Owns: `Routine.structured_renamed`, which says so for the hooks that blocks suggest
and any limits.
-/

namespace FlowRegions.Routine

open FlowRegions.Digraph (root terminator)

variable {σ ε σ' ε' : Type} {routine : Routine σ ε} {other : Routine σ' ε'}
  {turn name : Nat → Nat} {config config' : Config}

/-- What the blocks suggest is the same for reachable vertices. -/
theorem Renamed.agrees (valid : routine.fault? = none) (valid' : other.fault? = none)
    (renamed : Renamed turn routine other) (naming : Naming turn name routine other)
    (maxVertices maxVertices' : Int) (maxDuplications : Nat) (duplicationSize : Int)
    (forLoops : Bool) :
    (withLimits maxVertices maxDuplications duplicationSize forLoops routine.config).Agrees name
      routine.IsReachable
      (withLimits maxVertices' maxDuplications duplicationSize forLoops other.config) := by
  have hook {property : Block σ ε → Bool} {property' : Block σ' ε' → Bool}
      (same : ∀ {block block'}, block.Renamed turn block' → property' block' = property block)
      {w : Nat} (reachable : routine.IsReachable w) :
      other.blockHas property' (name w) = routine.blockHas property w := by
    obtain ⟨block, block', isBlock, isBlock', isRenamed⟩ :=
      renamed.exists_blocks valid valid' reachable
    rw [blockHas, blockHas, naming.extends_turn reachable, isBlock, isBlock']
    exact same isRenamed
  have isEmpty {block : Block σ ε} {block' : Block σ' ε'} (same : block.Renamed turn block') :
      block'.statements.isEmpty = block.statements.isEmpty := by
    rw [Bool.eq_iff_iff, List.isEmpty_iff_length_eq_zero, List.isEmpty_iff_length_eq_zero,
      same.statements]
  have targets {block : Block σ ε} {block' : Block σ' ε'} (same : block.Renamed turn block') :
      block'.targets.length = block.targets.length := by
    have lengths := congrArg List.length same.targets
    rwa [List.length_map, Block.targetVertices, Block.targetVertices, List.length_map,
      List.length_map] at lengths
  exact
    { maxDuplications := rfl
      duplicationSize := rfl
      forLoops := rfl
      multiway := hook fun same => same.cases
      onlyTests := hook fun {block block'} same => by
        have noCases : block'.cases.isNone = block.cases.isNone := by
          rw [← Option.not_isSome, ← Option.not_isSome, same.cases]
        rw [Block.onlyTests, Block.onlyTests, isEmpty same, same.condition, noCases]
      isStep := hook fun {block block'} same => by
        rw [Block.isStep, Block.isStep, same.statements, targets same] }

/-- Where runs over two such routines have left out what is not reached, they are in
lockstep. -/
theorem Opened.lockstep (valid : routine.fault? = none) (valid' : other.fault? = none)
    (renamed : Renamed turn routine other) (naming : Naming turn name routine other)
    {state state' : State} (opened : routine.Opened config state)
    (opened' : other.Opened config' state') :
    State.Lockstep name routine.IsReachable config config'
      (RegionGraph.inputTargets routine.flow) (RegionGraph.inputTargets other.flow)
      state state' where
  renamed := opened.cleared.renamed valid valid' renamed naming opened'.cleared
  proper := opened.proper
  proper' := opened'.proper
  all := opened.all
  accounted := opened.accounted
  duplicated := by
    rw [opened.duplicated, opened'.duplicated]
    rfl
  labels := by
    rw [opened.labels, opened'.labels]
    rfl

section Ends

variable (valid : routine.fault? = none) (valid' : other.fault? = none)
  (renamed : Renamed turn routine other) {maxVertices maxVertices' : Int} {maxDuplications : Nat}
  {duplicationSize : Int} {forLoops : Bool} (small : routine.blocks.size ≤ maxVertices)
  (small' : other.blocks.size ≤ maxVertices')
include valid valid' renamed small small'

/-- There are trees for both routines or for neither.  The routine with fewer blocks
gives the names here, which go both ways. -/
theorem Renamed.ends (le : routine.blocks.size ≤ other.blocks.size) :
    (∃ tree tree',
      (routine.structured (withLimits maxVertices maxDuplications duplicationSize forLoops)).2 =
        .ok tree ∧
      (other.structured (withLimits maxVertices' maxDuplications duplicationSize forLoops)).2 =
        .ok tree' ∧
      (∃ region, Tree.Renamed turn region tree tree') ∧
      ∀ back, (∀ v, routine.IsReachable v → back (turn v) = v) →
        ∃ region, Tree.Renamed back region tree' tree) ∨
    (∃ error,
      (routine.structured (withLimits maxVertices maxDuplications duplicationSize forLoops)).2 =
        .error error) ∧
      ∃ error,
        (other.structured (withLimits maxVertices' maxDuplications duplicationSize forLoops)).2 =
          .error error := by
  obtain ⟨name, naming⟩ := exists_naming valid valid' renamed le
  have agrees := renamed.agrees valid valid' naming maxVertices maxVertices' maxDuplications
    duplicationSize forLoops
  obtain ⟨start, accepted⟩ : ∃ start, Structuring.ofGraph
      (withLimits maxVertices maxDuplications duplicationSize forLoops routine.config)
      routine.flow = .ok start := exists_ofGraph valid small
  obtain ⟨start', accepted'⟩ : ∃ start', Structuring.ofGraph
      (withLimits maxVertices' maxDuplications duplicationSize forLoops other.config)
      other.flow = .ok start' := exists_ofGraph valid' small'
  obtain ⟨state, opened, reached, verdicts⟩ := exists_opened valid accepted
  obtain ⟨state', opened', _, verdicts'⟩ := exists_opened valid' accepted'
  obtain ⟨_, _, _, _, _, proper⟩ := Structuring.proper_ofGraph (sound_flow valid) accepted
  obtain ⟨_, _, _, _, _, proper'⟩ := Structuring.proper_ofGraph (sound_flow valid') accepted'
  have lockstep := opened.lockstep valid valid' renamed naming opened'
  rw [structured_eq valid rfl accepted, structured_eq valid' rfl accepted']
  rcases lockstep.verdicts agrees (verdicts _ proper.verdict_run) (verdicts' _ proper'.verdict_run)
    with ⟨entry, result, result', finished, onward, ended⟩ | ⟨⟨_, result⟩, _, result'⟩
  · rw [result, result']
    obtain ⟨_, _, traceable⟩ := Structuring.traceable_ofGraph (sound_flow valid) accepted
    have labelled := (traceable.reached (reached.trans onward)).labelled
    have live := ((ended.proper.isLive_iff_of_finish? finished).2 entry).mpr rfl
    refine .inl ⟨_, _, rfl, rfl, ⟨name, ended.tree_renamed labelled live fun reachable => ?_⟩,
      fun back goesBack => ended.tree_renamed_back labelled live fun {w} reachable => ?_⟩
    · exact (naming.extends_turn reachable).symm
    · rw [naming.extends_turn reachable]
      exact goesBack w reachable
  · rw [result, result']
    exact .inr ⟨⟨_, rfl⟩, _, rfl⟩

end Ends

/-- The result depends on the control flow that is reached, and not on how it is
numbered.  Two valid routines within their limits, whose reachable blocks differ in
numbering only, are structured alike under the same limits on copies and loops: if
one comes to a tree so does the other, and the trees differ in the names of vertices
and in the numbers of composite regions only. -/
theorem structured_renamed (valid : routine.fault? = none) (valid' : other.fault? = none)
    (renamed : Renamed turn routine other) (maxVertices maxVertices' : Int)
    (maxDuplications : Nat) (duplicationSize : Int) (forLoops : Bool)
    (small : routine.blocks.size ≤ maxVertices) (small' : other.blocks.size ≤ maxVertices') :
    ((∃ tree, (routine.structured
        (withLimits maxVertices maxDuplications duplicationSize forLoops)).2 = .ok tree) ↔
      ∃ tree, (other.structured
        (withLimits maxVertices' maxDuplications duplicationSize forLoops)).2 = .ok tree) ∧
    ∀ tree tree',
      (routine.structured (withLimits maxVertices maxDuplications duplicationSize forLoops)).2 =
        .ok tree →
      (other.structured (withLimits maxVertices' maxDuplications duplicationSize forLoops)).2 =
        .ok tree' →
      ∃ region, Tree.Renamed turn region tree tree' := by
  have decided : (∃ tree tree',
      (routine.structured (withLimits maxVertices maxDuplications duplicationSize forLoops)).2 =
        .ok tree ∧
      (other.structured (withLimits maxVertices' maxDuplications duplicationSize forLoops)).2 =
        .ok tree' ∧ ∃ region, Tree.Renamed turn region tree tree') ∨
      (∃ error, (routine.structured
        (withLimits maxVertices maxDuplications duplicationSize forLoops)).2 = .error error) ∧
      ∃ error, (other.structured
        (withLimits maxVertices' maxDuplications duplicationSize forLoops)).2 = .error error := by
    rcases Nat.le_total routine.blocks.size other.blocks.size with le | le
    · rcases renamed.ends valid valid' small small' le with
        ⟨tree, tree', isTree, isTree', same, _⟩ | neither
      · exact .inl ⟨tree, tree', isTree, isTree', same⟩
      · exact .inr neither
    · obtain ⟨back, renamed', inverse⟩ := renamed.symm valid
      rcases renamed'.ends valid' valid small' small le with
        ⟨tree', tree, isTree', isTree, _, goesBack⟩ | ⟨fails', fails⟩
      · exact .inl ⟨tree, tree', isTree, isTree', goesBack turn inverse⟩
      · exact .inr ⟨fails, fails'⟩
  rcases decided with ⟨tree, tree', isTree, isTree', same⟩ | ⟨⟨_, isError⟩, _, isError'⟩
  · rw [isTree, isTree']
    refine ⟨⟨fun _ => ⟨tree', rfl⟩, fun _ => ⟨tree, rfl⟩⟩, ?_⟩
    rintro _ _ ⟨⟩ ⟨⟩
    exact same
  · rw [isError, isError']
    refine ⟨⟨?_, ?_⟩, ?_⟩
    · rintro ⟨_, ⟨⟩⟩
    · rintro ⟨_, ⟨⟩⟩
    · rintro _ _ ⟨⟩

/-- A loop that is left from its top and from its middle, and a block at position 4
that is not reached. -/
def leftFromMiddle : Routine Unit Unit where
  name := "left from the middle"
  entry := 0
  blocks := #[
    some { statements := [()], condition := some (), targets := [1, 3], cases := none },
    some { statements := [()], condition := some (), targets := [2, 3], cases := none },
    some { statements := [()], condition := none, targets := [0], cases := none },
    some { statements := [()], condition := none, targets := [], cases := none },
    some { statements := [()], condition := none, targets := [3], cases := none }]

def leftFromMiddleTurned : Routine Unit Unit where
  name := "left from the middle, turned"
  entry := 3
  blocks := #[
    some { statements := [()], condition := some (), targets := [1, 2], cases := none },
    some { statements := [()], condition := none, targets := [3], cases := none },
    some { statements := [()], condition := none, targets := [], cases := none },
    some { statements := [()], condition := some (), targets := [0, 2], cases := none }]

theorem isReachable_leftFromMiddle (v : Nat) :
    leftFromMiddle.IsReachable v ↔ v ∈ [2, 3, 4, 5] := by
  constructor
  · intro reachable
    have held := reachable.mem [1, 2, 3, 4, 5] (by decide) (by decide +kernel)
    have real := reachable.1
    simp only [List.mem_cons, List.not_mem_nil, or_false] at held ⊢
    omega
  · intro member
    have top := isReachable_entry leftFromMiddle
    have middle := top.edge (v := 3) (by decide +kernel) (by decide)
    simp only [List.mem_cons, List.not_mem_nil, or_false] at member
    rcases member with rfl | rfl | rfl | rfl
    · exact top
    · exact middle
    · exact middle.edge (by decide +kernel) (by decide)
    · exact top.edge (by decide +kernel) (by decide)

theorem isReachable_leftFromMiddleTurned (v : Nat) :
    leftFromMiddleTurned.IsReachable v ↔ v ∈ [2, 3, 4, 5] := by
  constructor
  · intro reachable
    have held := reachable.mem [1, 2, 3, 4, 5] (by decide) (by decide +kernel)
    have real := reachable.1
    simp only [List.mem_cons, List.not_mem_nil, or_false] at held ⊢
    omega
  · intro member
    have top := isReachable_entry leftFromMiddleTurned
    have middle := top.edge (v := 2) (by decide +kernel) (by decide)
    simp only [List.mem_cons, List.not_mem_nil, or_false] at member
    rcases member with rfl | rfl | rfl | rfl
    · exact middle
    · exact middle.edge (by decide +kernel) (by decide)
    · exact top.edge (by decide +kernel) (by decide)
    · exact top

def leftFromMiddleTurn (v : Nat) : Nat :=
  if v = 2 then 5 else v - 1

/-- The two loops differ in numbering only. -/
theorem renamed_leftFromMiddle :
    Renamed leftFromMiddleTurn leftFromMiddle leftFromMiddleTurned where
  bijective := by
    have maps : ∀ v ∈ [2, 3, 4, 5], leftFromMiddleTurn v ∈ [2, 3, 4, 5] := by decide
    have inj : ∀ u ∈ [2, 3, 4, 5], ∀ v ∈ [2, 3, 4, 5],
        leftFromMiddleTurn u = leftFromMiddleTurn v → u = v := by decide
    have covers : ∀ w ∈ [2, 3, 4, 5], ∃ v ∈ [2, 3, 4, 5], leftFromMiddleTurn v = w := by decide
    have first {v : Nat} := isReachable_leftFromMiddle v
    have second {v : Nat} := isReachable_leftFromMiddleTurned v
    refine ⟨fun v reachable => ?_, fun u reachable v reachable' same => ?_, fun w reachable => ?_⟩
    · exact second.mpr (maps v (first.mp reachable))
    · exact inj u (first.mp reachable) v (first.mp reachable') same
    · obtain ⟨v, member, same⟩ := covers w (second.mp reachable)
      exact ⟨v, first.mpr member, same⟩
  entry := by decide
  blocks := by
    intro v block block' reachable isBlock isBlock'
    have each : ∀ v ∈ [2, 3, 4, 5], ∀ block ∈ leftFromMiddle.blockAt? v,
        ∀ block' ∈ leftFromMiddleTurned.blockAt? (leftFromMiddleTurn v),
        block.Renamed leftFromMiddleTurn block' := by decide +kernel
    exact each v ((isReachable_leftFromMiddle v).mp reachable) block isBlock block' isBlock'

/-- Both become a loop with a jump out of its middle, and the jump goes to the same
place in either numbering. -/
theorem structured_renamed_left_from_middle :
    ∃ tree tree' region,
      (leftFromMiddle.structured (withLimits 65536 8 4 true)).2 = .ok tree ∧
      (leftFromMiddleTurned.structured (withLimits 4 8 4 true)).2 = .ok tree' ∧
      Tree.Renamed leftFromMiddleTurn region tree tree' ∧
      tree.render = "(seq (while c2 2 (ifelse c3 3 4 (goto 5))) 5)" ∧
      tree'.render = "(seq (while c5 5 (ifelse c2 2 3 (goto 4))) 4)" := by
  have text : (leftFromMiddle.structured (withLimits 65536 8 4 true)).2.toOption.map
      Tree.render = some "(seq (while c2 2 (ifelse c3 3 4 (goto 5))) 5)" := by decide +kernel
  have text' : (leftFromMiddleTurned.structured (withLimits 4 8 4 true)).2.toOption.map
      Tree.render = some "(seq (while c5 5 (ifelse c2 2 3 (goto 4))) 4)" := by decide +kernel
  obtain ⟨both, renames⟩ := structured_renamed (by decide) (by decide) renamed_leftFromMiddle
    65536 4 8 4 true (by decide) (by decide)
  cases isTree : (leftFromMiddle.structured (withLimits 65536 8 4 true)).2 with
  | error cause =>
      rw [isTree] at text
      cases text
  | ok tree =>
      obtain ⟨tree', isTree'⟩ := both.mp ⟨tree, isTree⟩
      obtain ⟨region, same⟩ := renames tree tree' isTree isTree'
      rw [isTree] at text
      rw [isTree'] at text'
      exact ⟨tree, tree', region, rfl, isTree', same, Option.some.inj text,
        Option.some.inj text'⟩

end FlowRegions.Routine
