import FlowRegions.Proofs.Renaming.Regions
import FlowRegions.Proofs.Structuring.Partition
import Mathlib.Data.Fintype.Sum

/-!
Contract: where the runs of two routines with the same reachable blocks start.

Once the blocks that control flow does not reach are left out, the region graphs
of two such routines differ in names only.  Blocks that are not reached stay in the
tables of regions as detached leaves, so they get names as well; the routine with
fewer blocks has room for its names among those of the other.

Owns:
- `Routine.Renamed`, routines whose reachable blocks differ in numbering only;
- `Routine.Naming`, names for all regions that go on with such a numbering;
- `Routine.Cleared`, the region graph of a routine without what is not reached, and
  that runs come to it.
-/

namespace FlowRegions

open FlowRegions.Digraph (root terminator)

/-! ## Routines with the same reachable blocks -/

def Block.targetVertices {σ ε : Type} (block : Block σ ε) : List Nat :=
  block.targets.map fun target => Routine.vertexAt target.toNat

/-- A block and the same block in another numbering, as far as structuring looks at
it: the targets are the same under `turn`, there are as many statements, and there
is a condition or a case list when the other block has one. -/
@[mk_iff]
structure Block.Renamed {σ ε σ' ε' : Type} (turn : Nat → Nat) (block : Block σ ε)
    (other : Block σ' ε') : Prop where
  targets : other.targetVertices = block.targetVertices.map turn
  statements : other.statements.length = block.statements.length
  condition : other.condition.isSome = block.condition.isSome
  cases : other.cases.isSome = block.cases.isSome

instance {σ ε σ' ε' : Type} (turn : Nat → Nat) (block : Block σ ε) (other : Block σ' ε') :
    Decidable (block.Renamed turn other) :=
  decidable_of_iff' _ (Block.renamed_iff turn block other)

/-- Routines whose reachable blocks differ in numbering only: `turn` maps the
reachable vertices of the one to those of the other, entry to entry. -/
structure Routine.Renamed {σ ε σ' ε' : Type} (turn : Nat → Nat) (routine : Routine σ ε)
    (other : Routine σ' ε') : Prop where
  bijective : Set.BijOn turn {v | routine.IsReachable v} {v | other.IsReachable v}
  entry : turn (Routine.vertexAt routine.entry.toNat) = Routine.vertexAt other.entry.toNat
  blocks : ∀ {v block block'}, routine.IsReachable v → routine.blockAt? v = some block →
    other.blockAt? (turn v) = some block' → block.Renamed turn block'

namespace Routine

variable {σ ε σ' ε' : Type} {routine : Routine σ ε} {other : Routine σ' ε'} {turn : Nat → Nat}

/-! ## Reachable blocks -/

theorem isReachable_entry (routine : Routine σ ε) :
    routine.IsReachable (vertexAt routine.entry.toNat) :=
  ⟨Nat.le_add_left 2 _, .refl _⟩

theorem IsReachable.edge {u v : Nat} (reachable : routine.IsReachable u)
    (edge : v ∈ routine.flow.successors u) (real : 2 ≤ v) : routine.IsReachable v :=
  ⟨real, reachable.2.edge edge⟩

/-- What holds the entry and the targets of what it holds, holds what is reached. -/
theorem IsReachable.mem (held : List Nat) (entry : vertexAt routine.entry.toNat ∈ held)
    (targets : ∀ u ∈ held, ∀ v ∈ routine.flow.successors u, v ∈ held) {v : Nat}
    (reachable : routine.IsReachable v) : v ∈ held := by
  have walk := Digraph.reaches_iff.mp reachable.2
  clear reachable
  induction walk with
  | refl => exact entry
  | tail _ edge inductionHypothesis => exact targets _ inductionHypothesis _ edge

section Valid

variable (valid : routine.fault? = none)
include valid

theorem IsReachable.lt_size {v : Nat} (reachable : routine.IsReachable v) :
    v < routine.blocks.size + 2 := by
  have entry := ((names_iff routine.entry).mp (entry_named valid)).2
  have walk := Digraph.reaches_iff.mp reachable.2
  rw [← size_flow valid]
  cases walk with
  | refl =>
      rw [size_flow valid, vertexAt]
      omega
  | tail _ edge => exact (consistent_flow valid).inRange _ _ edge

/-- A vertex that is reached has a block, and reaches the targets of the block. -/
theorem IsReachable.exists_block {v : Nat} (reachable : routine.IsReachable v) :
    ∃ block, routine.blockAt? v = some block ∧ routine.flow.successors v = edgesOf block ∧
      ∀ t ∈ block.targetVertices, routine.IsReachable t := by
  obtain ⟨position, rfl⟩ : ∃ position, v = position + 2 := ⟨v - 2, by have := reachable.1; omega⟩
  obtain ⟨block, isBlock⟩ := Routine.exists_block valid
    (show position < routine.blocks.size by have := reachable.lt_size valid; omega)
  have edges := successors_block valid isBlock
  refine ⟨block, ?_, edges, fun t isTarget => reachable.edge ?_ ?_⟩
  · rw [blockAt?, if_neg (by omega), Nat.add_sub_cancel, isBlock]
    rfl
  · rw [edges, edgesOf, if_neg]
    · exact isTarget
    · rw [Block.returns, List.isEmpty_iff]
      intro noTargets
      rw [Block.targetVertices, noTargets] at isTarget
      cases isTarget
  · obtain ⟨target, _, rfl⟩ := List.mem_map.mp isTarget
    exact Nat.le_add_left 2 _

end Valid

namespace Renamed

section Blocks

variable (valid : routine.fault? = none) (valid' : other.fault? = none)
  (renamed : Renamed turn routine other)
include valid valid' renamed

/-- Reachable vertices have the same block in either numbering. -/
theorem exists_blocks {v : Nat} (reachable : routine.IsReachable v) :
    ∃ block block', routine.blockAt? v = some block ∧ other.blockAt? (turn v) = some block' ∧
      block.Renamed turn block' := by
  obtain ⟨block, isBlock, _⟩ := reachable.exists_block valid
  obtain ⟨block', isBlock', _⟩ :=
    IsReachable.exists_block valid' (renamed.bijective.mapsTo reachable)
  exact ⟨block, block', isBlock, isBlock', renamed.blocks reachable isBlock isBlock'⟩

/-- The edges of a reachable vertex are the same under names that go on with the
numbering. -/
theorem successors_eq {name : Nat → Nat} (name_terminator : name terminator = terminator)
    (extends_turn : ∀ {v}, routine.IsReachable v → name v = turn v) {v : Nat}
    (reachable : routine.IsReachable v) :
    other.flow.successors (name v) = (routine.flow.successors v).map name := by
  obtain ⟨block, isBlock, edges, targets⟩ := reachable.exists_block valid
  obtain ⟨block', isBlock', edges', _⟩ :=
    IsReachable.exists_block valid' (renamed.bijective.mapsTo reachable)
  have same := (renamed.blocks reachable isBlock isBlock').targets
  have named : block.targetVertices.map turn = block.targetVertices.map name :=
    List.map_congr_left fun t isTarget => (extends_turn (targets t isTarget)).symm
  rw [named] at same
  have returns : block'.returns = block.returns := by
    have lengths := congrArg List.length same
    rw [List.length_map, Block.targetVertices, Block.targetVertices, List.length_map,
      List.length_map] at lengths
    rw [Block.returns, Block.returns, Bool.eq_iff_iff, List.isEmpty_iff_length_eq_zero,
      List.isEmpty_iff_length_eq_zero, lengths]
  rw [extends_turn reachable, edges', edges, edgesOf, edgesOf, returns]
  split
  · rw [List.map_singleton, name_terminator]
  · exact same

omit valid' in
/-- Either numbering goes back to the other. -/
theorem symm : ∃ back, Renamed back other routine ∧
    ∀ w, other.IsReachable w → turn (back w) = w := by
  have inverse := renamed.bijective.invOn_invFunOn
  refine ⟨Function.invFunOn turn {v | routine.IsReachable v},
    { bijective := Set.BijOn.symm inverse.symm renamed.bijective
      entry := ?_
      blocks := ?_ }, fun w reachable => inverse.2 reachable⟩
  · rw [← renamed.entry]
    exact inverse.1 (isReachable_entry routine)
  · intro w block' block reachable' isBlock' isBlock
    obtain ⟨v, reachable, rfl⟩ := renamed.bijective.surjOn reachable'
    rw [inverse.1 reachable] at isBlock
    have same := renamed.blocks reachable isBlock isBlock'
    obtain ⟨_, isBlock'', _, targets⟩ := reachable.exists_block valid
    rw [isBlock] at isBlock''
    cases isBlock''
    refine ⟨?_, same.statements.symm, same.condition.symm, same.cases.symm⟩
    calc block.targetVertices
        = block.targetVertices.map id := (List.map_id _).symm
      _ = block.targetVertices.map (Function.invFunOn turn _ ∘ turn) :=
        List.map_congr_left fun t isTarget => (inverse.1 (targets t isTarget)).symm
      _ = (block.targetVertices.map turn).map _ := List.map_map.symm
      _ = block'.targetVertices.map _ := by rw [same.targets]

end Blocks

end Renamed

/-! ## Names -/

/-- Names for all regions that go on with a numbering of reachable vertices: what
is not reached gets a name among what is not reached, and what is added gets the
next name. -/
structure Naming (turn name : Nat → Nat) (routine : Routine σ ε) (other : Routine σ' ε') :
    Prop where
  injective : Function.Injective name
  name_root : name root = root
  name_terminator : name terminator = terminator
  extends_turn : ∀ {v}, routine.IsReachable v → name v = turn v
  within : ∀ {v}, v < routine.blocks.size + 2 → name v < other.blocks.size + 2
  fresh : ∀ k, name (routine.blocks.size + 2 + k) = other.blocks.size + 2 + k

/-- What is given names below a bound, one for each, leaves names for all numbers. -/
theorem exists_names {size size' : Nat} (le : size ≤ size') (given : Set Nat)
    (turn : Nat → Nat) (injOn : Set.InjOn turn given)
    (within : ∀ v ∈ given, v < size ∧ turn v < size') :
    ∃ name, Function.Injective name ∧ (∀ v ∈ given, name v = turn v) ∧
      (∀ v < size, name v < size') ∧ ∀ k, name (size + k) = size' + k := by
  classical
  let part : Finset (Fin size) := Finset.univ.filter fun i => i.val ∈ given
  have isPart {i : Fin size} : i ∈ part ↔ i.val ∈ given := by simp [part]
  have image : part.image (fun i => turn i.val) ⊆ Finset.range size' := by
    intro w member
    obtain ⟨i, isGiven, rfl⟩ := Finset.mem_image.mp member
    exact Finset.mem_range.mpr (within i (isPart.mp isGiven)).2
  have few : (part.image fun i => turn i.val).card ≤ size := by
    have images := Finset.card_image_le (s := part) (f := fun i => turn i.val)
    have parts := Finset.card_le_univ part
    rw [Fintype.card_fin] at parts
    exact images.trans parts
  obtain ⟨names, covers, below, count⟩ :=
    Finset.exists_subsuperset_card_eq image few (by rwa [Finset.card_range])
  obtain ⟨table, agrees⟩ := Finset.exists_equiv_extend_of_card_eq
    (show Fintype.card (Fin size) = names.card by rw [Fintype.card_fin, count]) covers
    fun i isGiven j isGiven' same =>
      Fin.ext (injOn (isPart.mp isGiven) (isPart.mp isGiven') same)
  have tableBelow (i : Fin size) : (table i : Nat) < size' :=
    Finset.mem_range.mp (below (table i).2)
  let name (v : Nat) : Nat := if low : v < size then table ⟨v, low⟩ else size' + (v - size)
  have named {v : Nat} (low : v < size) : name v = table ⟨v, low⟩ := dif_pos low
  have fresh {v : Nat} (high : ¬ v < size) : name v = size' + (v - size) := dif_neg high
  refine ⟨name, fun u v same => ?_, fun v isGiven => ?_, fun v low => ?_, fun k => ?_⟩
  · by_cases low : u < size <;> by_cases low' : v < size
    · rw [named low, named low'] at same
      exact congrArg Fin.val (table.injective (Subtype.ext same))
    · rw [named low, fresh low'] at same
      have := tableBelow ⟨u, low⟩
      omega
    · rw [fresh low, named low'] at same
      have := tableBelow ⟨v, low'⟩
      omega
    · rw [fresh low, fresh low'] at same
      omega
  · have low := (within v isGiven).1
    rw [named low]
    exact agrees ⟨v, low⟩ (isPart.mpr isGiven)
  · rw [named low]
    exact tableBelow _
  · rw [fresh (by omega), Nat.add_sub_cancel_left]

theorem exists_naming (valid : routine.fault? = none) (valid' : other.fault? = none)
    (renamed : Renamed turn routine other) (le : routine.blocks.size ≤ other.blocks.size) :
    ∃ name, Naming turn name routine other := by
  have turned {v : Nat} (reachable : routine.IsReachable v) : other.IsReachable (turn v) :=
    renamed.bijective.mapsTo reachable
  let given (v : Nat) : Nat := if v < 2 then v else turn v
  have kept {v : Nat} (synthetic : v < 2) : given v = v := if_pos synthetic
  have reached {v : Nat} (reachable : routine.IsReachable v) : given v = turn v :=
    if_neg (Nat.not_lt.mpr reachable.1)
  obtain ⟨name, injective, isGiven, within, fresh⟩ := exists_names
    (Nat.add_le_add_right le 2) {v | v < 2 ∨ routine.IsReachable v} given
    (by
      rintro u (synthetic | reachable) v (synthetic' | reachable') same
      · rwa [kept synthetic, kept synthetic'] at same
      · rw [kept synthetic, reached reachable'] at same
        have := (turned reachable').1
        omega
      · rw [reached reachable, kept synthetic'] at same
        have := (turned reachable).1
        omega
      · rw [reached reachable, reached reachable'] at same
        exact renamed.bijective.injOn reachable reachable' same)
    (by
      rintro v (synthetic | reachable)
      · rw [kept synthetic]
        omega
      · rw [reached reachable]
        exact ⟨reachable.lt_size valid, (turned reachable).lt_size valid'⟩)
  exact ⟨name,
    { injective
      name_root := (isGiven root (.inl Nat.two_pos)).trans (kept Nat.two_pos)
      name_terminator := (isGiven terminator (.inl Nat.one_lt_two)).trans (kept Nat.one_lt_two)
      extends_turn := fun reachable => (isGiven _ (.inr reachable)).trans (reached reachable)
      within := fun {v} => within v
      fresh }⟩

namespace Naming

variable {name : Nat → Nat} (naming : Naming turn name routine other) {v : Nat}
include naming

theorem isReachable_iff (renamed : Renamed turn routine other) :
    other.IsReachable (name v) ↔ routine.IsReachable v := by
  constructor
  · intro reachable'
    obtain ⟨u, reachable, same⟩ := renamed.bijective.surjOn reachable'
    rw [← naming.extends_turn reachable] at same
    rwa [← naming.injective same]
  · intro reachable
    rw [naming.extends_turn reachable]
    exact renamed.bijective.mapsTo reachable

theorem name_synthetic (synthetic : v < 2) : name v = v := by
  have isEnd : v = root ∨ v = terminator := by
    simp only [root, terminator]
    omega
  rcases isEnd with rfl | rfl
  · exact naming.name_root
  · exact naming.name_terminator

theorem two_le (real : 2 ≤ v) : 2 ≤ name v := by
  by_contra synthetic
  have kept := naming.name_synthetic (Nat.not_le.mp synthetic)
  have same := naming.injective kept
  omega

theorem beyond (high : routine.blocks.size + 2 ≤ v) : other.blocks.size + 2 ≤ name v := by
  have fresh := naming.fresh (v - (routine.blocks.size + 2))
  rw [Nat.add_sub_cancel' high] at fresh
  rw [fresh]
  exact Nat.le_add_right _ _

end Naming

/-! ## Graphs without what is not reached -/

structure Cleared (routine : Routine σ ε) (graph : RegionGraph) : Prop where
  consistent : graph.Consistent
  size_eq : graph.size = routine.blocks.size + 2
  leaf : ∀ {v}, 2 ≤ v → v < graph.size → graph.payload? v = some { shape := .leaf v }
  live_iff : ∀ v, graph.isLive v = true ↔ routine.IsReachable v
  synthetic : ∀ v < 2, graph.isDetached v = false
  from_root : graph.successors root = [vertexAt routine.entry.toNat]
  from_reached : ∀ {v}, routine.IsReachable v → graph.successors v = routine.flow.successors v
  from_others : ∀ {v}, v ≠ root → ¬ routine.IsReachable v → graph.successors v = []

section Start

variable (valid : routine.fault? = none) {config : Config} {start : Structuring}
  (accepted : Structuring.ofGraph config routine.flow = .ok start)
include valid accepted

/-- Detaching the strays of the graph that a run starts from leaves what is
reached. -/
theorem cleared_isolateAll {strays : List Nat}
    (isStray : ∀ v, v ∈ strays ↔
      start.state.graph.isLive v = true ∧ ¬ start.state.graph.Reaches .forward root v) :
    routine.Cleared (start.state.graph.isolateAll strays) := by
  obtain ⟨_, _, _, _, ⟨entry, entries, taken⟩, proper⟩ :=
    Structuring.proper_ofGraph (sound_flow valid) accepted
  have consistent := proper.wellFormed.consistent
  have pruned := RegionGraph.pruned_isolateAll consistent strays
  have kept {v : Nat} : routine.IsReachable v ↔
      start.state.graph.isLive v = true ∧ start.state.graph.Reaches .forward root v :=
    (keeps_start_iff valid accepted v).symm
  have isEntry : entry = vertexAt routine.entry.toNat := by
    have single : [vertexAt routine.entry.toNat].eraseDups = [entry] := by
      rw [← entries, successors_root valid]
      rfl
    simpa [List.eraseDups_cons] using single.symm
  have reached {v : Nat} (reaches : start.state.graph.Reaches .forward root v) : v ∉ strays :=
    fun stray => ((isStray v).mp stray).2 reaches
  refine
    { consistent := pruned.consistent
      size_eq := by rw [pruned.size_eq, taken.size_eq, size_flow valid]
      leaf := fun {v} real within => ?_
      live_iff := fun v => ?_
      synthetic := fun v below => ?_
      from_root := ?_
      from_reached := fun {v} reachable => ?_
      from_others := fun {v} notRoot unreached => ?_ }
  · rw [pruned.size_eq, taken.size_eq] at within
    exact (pruned.table_eq v).trans (taken.table_leaf real within)
  · rw [pruned.live_iff, isStray, kept]
    tauto
  · have notStray : v ∉ strays := fun stray =>
      absurd (consistent.two_le_of_isLive ((isStray v).mp stray).1) (Nat.not_le.mpr below)
    rw [Digraph.isDetached_eq_marks, Digraph.marks_isolateAll, if_neg notStray,
      ← Digraph.isDetached_eq_marks, taken.synthetic v below]
  · have fromRoot : start.state.graph.successors root = [entry] := by
      rw [taken.successors_eq, if_pos rfl]
    have entryReached : start.state.graph.Reaches .forward root entry :=
      (Digraph.Reaches.refl root).edge (by
        show entry ∈ start.state.graph.successors root
        rw [fromRoot]
        exact List.mem_singleton_self entry)
    rw [pruned.successors_eq, if_neg (reached (.refl root)), fromRoot, ← isEntry]
    exact List.filter_eq_self.mpr (List.forall_mem_singleton.mpr
      (decide_eq_true (reached entryReached)))
  · have reaches := (kept.mp reachable).2
    have real := reachable.1
    have notRoot : v ≠ root := by
      simp only [root]
      omega
    have edges : start.state.graph.successors v = routine.flow.successors v := by
      rw [taken.successors_eq, if_neg notRoot,
        if_pos ⟨real, by rw [size_flow valid]; exact reachable.lt_size valid⟩]
    rw [pruned.successors_eq, if_neg (reached reaches), ← edges]
    exact List.filter_eq_self.mpr fun t edge => decide_eq_true (reached (reaches.edge edge))
  · rw [pruned.successors_eq]
    split
    · rfl
    · rename_i notStray
      have leadsNowhere : start.state.graph.successors v = [] := by
        rw [taken.successors_eq, if_neg notRoot, if_neg]
        rintro ⟨real, within⟩
        have live := (taken.isLive_iff v).mpr ⟨real, within, isDetached_flow valid v⟩
        exact notStray ((isStray v).mpr ⟨live, fun reaches => unreached (kept.mpr ⟨live, reaches⟩)⟩)
      rw [leadsNowhere]
      rfl

end Start

namespace Cleared

section Marks

variable {graph : RegionGraph} (cleared : routine.Cleared graph) {v : Nat}
include cleared

theorem marks_synthetic (synthetic : v < 2) : graph.marks v = some (none, false) := by
  have within := Nat.lt_of_lt_of_le synthetic cleared.consistent.atLeastTwo
  have attached := cleared.synthetic v synthetic
  have payload : graph.payload? v = none := by
    rw [← Option.not_isSome_iff_eq_none, cleared.consistent.payloads]
    omega
  rw [Digraph.isDetached_eq_marks] at attached
  rw [Digraph.payload?_eq_marks] at payload
  cases isMarked : graph.marks v with
  | none => exact absurd ((Digraph.marks_eq_none_iff graph v).mp isMarked) (Nat.not_le.mpr within)
  | some mark =>
      rw [isMarked] at attached payload
      exact congrArg some (Prod.ext payload attached)

theorem marks_leaf (real : 2 ≤ v) (within : v < graph.size) :
    graph.marks v = some (some { shape := .leaf v }, !graph.isLive v) := by
  have payload := cleared.leaf real within
  have isLive := Digraph.isLive_eq_marks graph v
  rw [Digraph.payload?_eq_marks] at payload
  cases isMarked : graph.marks v with
  | none => exact absurd ((Digraph.marks_eq_none_iff graph v).mp isMarked) (Nat.not_le.mpr within)
  | some mark =>
      obtain ⟨found, detached⟩ := mark
      rw [isMarked] at isLive payload
      have isLeaf : found = some { shape := .leaf v } := payload
      rw [isLive, isLeaf]
      simp

end Marks

/-- The graphs of routines with the same reachable blocks differ in names only. -/
theorem renamed (valid : routine.fault? = none) (valid' : other.fault? = none)
    (same : Renamed turn routine other) {name : Nat → Nat}
    (naming : Naming turn name routine other) {graph graph' : RegionGraph}
    (cleared : routine.Cleared graph) (cleared' : other.Cleared graph') :
    Digraph.Renamed name (Node.relabel name name) graph graph' := by
  have reachable_iff {v : Nat} : other.IsReachable (name v) ↔ routine.IsReachable v :=
    naming.isReachable_iff same
  refine
    { injective := naming.injective
      name_root := naming.name_root
      name_terminator := naming.name_terminator
      consistent := cleared.consistent
      consistent' := cleared'.consistent
      fresh := ?_
      successors_name := fun v => ?_
      marks_name := fun v => ?_
      unnamed := fun w isUnnamed => ?_ }
  · rw [cleared.size_eq, cleared'.size_eq]
    exact naming.fresh
  · by_cases isRoot : v = root
    · rw [isRoot, naming.name_root, cleared.from_root, cleared'.from_root, List.map_singleton,
        naming.extends_turn (isReachable_entry routine), same.entry]
    have notRoot : name v ≠ root := fun isRoot' =>
      isRoot (naming.injective (isRoot'.trans naming.name_root.symm))
    by_cases reachable : routine.IsReachable v
    · rw [cleared.from_reached reachable, cleared'.from_reached (reachable_iff.mpr reachable)]
      exact same.successors_eq valid valid' naming.name_terminator naming.extends_turn reachable
    · rw [cleared.from_others isRoot reachable,
        cleared'.from_others notRoot (mt reachable_iff.mp reachable)]
      rfl
  · by_cases synthetic : v < 2
    · rw [naming.name_synthetic synthetic, cleared.marks_synthetic synthetic,
        cleared'.marks_synthetic synthetic]
      rfl
    by_cases within : v < routine.blocks.size + 2
    · have real := Nat.not_lt.mp synthetic
      have live : graph'.isLive (name v) = graph.isLive v := by
        rw [Bool.eq_iff_iff, cleared.live_iff, cleared'.live_iff, reachable_iff]
      rw [cleared.marks_leaf real (cleared.size_eq ▸ within),
        cleared'.marks_leaf (naming.two_le real) (cleared'.size_eq ▸ naming.within within), live]
      rfl
    · have high := Nat.not_lt.mp within
      rw [(Digraph.marks_eq_none_iff graph v).mpr (cleared.size_eq ▸ high),
        (Digraph.marks_eq_none_iff graph' _).mpr (cleared'.size_eq ▸ naming.beyond high)]
      rfl
  · have unreached : ¬ other.IsReachable w := by
      intro reachable
      obtain ⟨v, isReached, isName⟩ := same.bijective.surjOn reachable
      exact isUnnamed v ((naming.extends_turn isReached).trans isName)
    refine ⟨cleared'.from_others ?_ unreached, ?_⟩
    · rintro rfl
      exact isUnnamed root naming.name_root
    · rw [← Bool.not_eq_true, cleared'.live_iff]
      exact unreached

end Cleared

/-! ## States without what is not reached -/

/-- Where a run over a routine has left out what is not reached, and nothing else
has been done. -/
structure Opened (routine : Routine σ ε) (config : Config) (state : State) : Prop where
  cleared : routine.Cleared state.graph
  proper : State.Proper config (RegionGraph.inputTargets routine.flow) state
  all : state.graph.AllReached
  accounted : RegionGraph.Accounted config routine.IsReachable state.graph
  duplicated : state.duplicated = []
  labels : state.labels = []

/-- A run over a routine comes to such a state at once, and ends as it ends from
there. -/
theorem exists_opened (valid : routine.fault? = none) {config : Config} {start : Structuring}
    (accepted : Structuring.ofGraph config routine.flow = .ok start) :
    ∃ state, routine.Opened config state ∧ State.Reached config start.state state ∧
      ∀ outcome, State.Verdict config start.state outcome → State.Verdict config state outcome := by
  have sound := sound_flow valid
  obtain ⟨_, _, noLabel, noDuplicate, ⟨_, _, taken⟩, proper⟩ :=
    Structuring.proper_ofGraph sound accepted
  have wellFormed := proper.wellFormed
  have kept : start.state.Keeps = routine.IsReachable :=
    funext fun v => propext (keeps_start_iff valid accepted v)
  by_cases all : start.state.graph.AllReached
  · have noStray (v : Nat) : v ∈ ([] : List Nat) ↔
        start.state.graph.isLive v = true ∧ ¬ start.state.graph.Reaches .forward root v :=
      ⟨nofun, fun ⟨live, unreached⟩ => absurd (all v live) unreached⟩
    exact ⟨start.state,
      { cleared := cleared_isolateAll valid accepted noStray
        proper
        all
        accounted := kept ▸ proper.accounted_start taken.node_eq all
        duplicated := noDuplicate
        labels := noLabel }, .refl, fun _ => id⟩
  · have unfinished : start.state.finish? = none := by
      cases finished : start.state.finish? with
      | none => rfl
      | some result =>
          obtain ⟨entry, rfl, _⟩ := proper.finish?_eq finished
          exact absurd (proper.allReached_of_finish? finished) all
    obtain ⟨action, chosen, _⟩ := proper.progress unfinished
    have steps : State.Steps config start.state (start.state.perform action).1 :=
      ⟨unfinished, action, chosen, rfl⟩
    have after := proper.step steps
    have accounted := proper.accounted_next taken.node_eq steps
    have legal := State.legal_of_choose wellFormed chosen
    have reached := legal.allReached wellFormed
    cases legal with
    | prune _ strayIff =>
        have active : ¬ State.Idles config start.state := by
          rintro ⟨_, collapse, isCollapse, _⟩
          rw [chosen] at isCollapse
          cases isCollapse
        exact ⟨_,
          { cleared := cleared_isolateAll valid accepted strayIff
            proper := after
            all := reached
            accounted := kept ▸ accounted
            duplicated := noDuplicate
            labels := noLabel }, .single steps, fun _ => State.Verdict.behind steps active⟩
    | collapse isReached | duplicate isReached | cut isReached => exact absurd isReached all

end Routine

end FlowRegions
