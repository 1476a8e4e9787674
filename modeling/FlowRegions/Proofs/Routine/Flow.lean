import FlowRegions.Routine
import FlowRegions.Proofs.Digraph.Edgeless

/-!
Contract: the control flow graph of a valid routine.

A valid routine has its blocks at their positions and targets that name blocks,
so its graph has one real vertex for each block, and the edges of a vertex are
those of its block.

Owns: the reading of validity as statements about blocks, and the vertices and
edges of `Routine.flow`.
-/

namespace FlowRegions.Routine

open FlowRegions.Digraph (root terminator)

variable {σ ε : Type} {routine : Routine σ ε} {position : Nat} {block : Block σ ε}

/-! ## Validity -/

section Validity

variable (valid : routine.fault? = none)
include valid

theorem entry_named : routine.names routine.entry = true := by
  unfold fault? at valid
  split at valid
  · cases valid
  split at valid
  · cases valid
  · rename_i named
    simpa using named

theorem blockFault?_eq_none {found : Option (Block σ ε)}
    (isBlock : routine.blocks[position]? = some found) :
    routine.blockFault? position found = none := by
  unfold fault? at valid
  split at valid
  · cases valid
  split at valid
  · cases valid
  · rw [List.findSome?_eq_none_iff] at valid
    exact valid (found, position) (List.mem_zipIdx_iff_getElem?.mpr (by simpa using isBlock))

/-- Every position holds a block. -/
theorem exists_block (within : position < routine.blocks.size) :
    ∃ block, routine.blocks[position]? = some (some block) := by
  have isBlock := Array.getElem?_eq_getElem within
  cases found : routine.blocks[position] with
  | some block => exact ⟨block, by rw [isBlock, found]⟩
  | none =>
      rw [found] at isBlock
      have noFault := blockFault?_eq_none valid isBlock
      cases noFault

/-- Targets name blocks. -/
theorem target_named (isBlock : routine.blocks[position]? = some (some block)) {target : Int}
    (isTarget : target ∈ block.targets) : routine.names target = true := by
  have noFault := blockFault?_eq_none valid isBlock
  rw [blockFault?] at noFault
  split at noFault
  · cases noFault
  · rename_i unnamed
    have named := List.find?_eq_none.mp unnamed target isTarget
    simpa using named

omit valid in
theorem names_iff (name : Int) :
    routine.names name = true ↔ 0 ≤ name ∧ name.toNat < routine.blocks.size := by
  rw [names, Bool.and_eq_true, decide_eq_true_eq, decide_eq_true_eq]
  omega

/-- The blocks that are present are all there are. -/
theorem present_eq : (routine.blocks.toList.filterMap id).map some = routine.blocks.toList := by
  have all : ∀ found ∈ routine.blocks.toList, found.isSome = true := by
    intro found member
    obtain ⟨position, isBlock⟩ := List.getElem?_of_mem member
    rw [Array.getElem?_toList] at isBlock
    have noFault := blockFault?_eq_none valid isBlock
    cases found with
    | some block => rfl
    | none => cases noFault
  generalize routine.blocks.toList = blocks at all
  induction blocks with
  | nil => rfl
  | cons found rest inductionHypothesis =>
      obtain ⟨block, rfl⟩ := Option.isSome_iff_exists.mp (all found List.mem_cons_self)
      have tail := inductionHypothesis fun other member => all other (List.mem_cons_of_mem _ member)
      have first : (some block :: rest).filterMap id = block :: rest.filterMap id := rfl
      rw [first, List.map_cons, tail]

end Validity

/-! ## The graph -/

def present (routine : Routine σ ε) : List (Block σ ε) :=
  routine.blocks.toList.filterMap id

theorem flow_eq (routine : Routine σ ε) : routine.flow =
    ((Digraph.edgeless routine.present).addEdge root (vertexAt routine.entry.toNat)).linkAll
      (routine.present.map edgesOf) 0 := by
  rw [flow, Digraph.linkAll, List.zipIdx_map, List.foldl_map]
  rfl

section Graph

variable (valid : routine.fault? = none)
include valid

theorem length_present : routine.present.length = routine.blocks.size := by
  have lengths := congrArg List.length (present_eq valid)
  rwa [List.length_map, Array.length_toList] at lengths

theorem present_getElem? (position : Nat) :
    routine.present[position]? = (routine.blocks[position]?).join := by
  have same : ((routine.blocks.toList.filterMap id).map some)[position]? =
      routine.blocks.toList[position]? := by rw [present_eq valid]
  have direct : routine.blocks.toList[position]? = routine.blocks[position]? :=
    Array.getElem?_toList
  rw [List.getElem?_map, direct] at same
  rw [← same, present]
  cases (List.filterMap id routine.blocks.toList)[position]? <;> rfl

theorem size_flow : routine.flow.size = routine.blocks.size + 2 := by
  rw [flow_eq, Digraph.size_linkAll, Digraph.size_addEdge, Digraph.size_edgeless,
    length_present valid]

theorem marks_flow (v : Nat) : routine.flow.marks v =
    if v < 2 then some (none, false)
    else (routine.blocks[v - 2]?).join.map fun block => (some block, false) := by
  rw [flow_eq, Digraph.marks_linkAll, Digraph.marks_addEdge, Digraph.marks_edgeless,
    present_getElem? valid]

theorem isDetached_flow (v : Nat) : routine.flow.isDetached v = false := by
  rw [Digraph.isDetached_eq_marks, marks_flow valid]
  split
  · rfl
  · cases (routine.blocks[v - 2]?).join <;> rfl

theorem successors_flow (v : Nat) : routine.flow.successors v =
    (if v = root then [vertexAt routine.entry.toNat] else []) ++
      if 2 ≤ v then (((routine.blocks[v - 2]?).join).map edgesOf).getD [] else [] := by
  have length := length_present valid
  have size : ((Digraph.edgeless routine.present).addEdge root
      (vertexAt routine.entry.toNat)).size = routine.blocks.size + 2 := by
    rw [Digraph.size_addEdge, Digraph.size_edgeless, length]
  rw [flow_eq, Digraph.successors_linkAll _ _ _ _ (by rw [size, List.length_map, length]; omega),
    Digraph.successors_addEdge, Digraph.successors_edgeless, Digraph.size_edgeless,
    List.getElem?_map, present_getElem? valid]
  congr 1
  by_cases isRoot : v = root
  · subst isRoot
    rw [if_pos ⟨rfl, by simp only [root]; omega⟩, if_pos rfl]
    rfl
  · rw [if_neg (fun both => isRoot both.1.symm), if_neg isRoot]

theorem successors_block (isBlock : routine.blocks[position]? = some (some block)) :
    routine.flow.successors (position + 2) = edgesOf block := by
  rw [successors_flow valid, if_neg (by simp only [root]; omega), if_pos (by omega),
    Nat.add_sub_cancel, isBlock]
  rfl

theorem successors_root : routine.flow.successors root = [routine.entry.toNat + 2] := by
  rw [successors_flow valid]
  rfl

/-- Edges of a block lead to the terminator, or to blocks. -/
theorem edgesOf_cases (isBlock : routine.blocks[position]? = some (some block)) :
    (block.targets = [] ∧ edgesOf block = [terminator]) ∨
      (block.targets ≠ [] ∧ edgesOf block = block.targets.map (fun target => target.toNat + 2) ∧
        ∀ v ∈ edgesOf block, 2 ≤ v ∧ v < routine.blocks.size + 2) := by
  unfold edgesOf Block.returns
  split
  · rename_i noTargets
    exact .inl ⟨List.isEmpty_iff.mp noTargets, rfl⟩
  · rename_i someTarget
    refine .inr ⟨fun none => someTarget (List.isEmpty_iff.mpr none), rfl, ?_⟩
    intro v member
    obtain ⟨target, isTarget, rfl⟩ := List.mem_map.mp member
    have named := (names_iff target).mp (target_named valid isBlock isTarget)
    exact ⟨Nat.le_add_left 2 _, Nat.add_lt_add_right named.2 2⟩

theorem consistent_flow : routine.flow.Consistent := by
  have length := length_present valid
  have size : (Digraph.edgeless routine.present).size = routine.blocks.size + 2 := by
    rw [Digraph.size_edgeless, length]
  have entry := (names_iff routine.entry).mp (entry_named valid)
  rw [flow_eq]
  refine Digraph.Consistent.linkAll ((Digraph.consistent_edgeless _).addEdge ?_ ?_) ?_ ?_
  · rw [size]
    exact Nat.succ_pos _
  · rw [size]
    exact Nat.add_lt_add_right entry.2 2
  · rw [Digraph.size_addEdge, size, List.length_map, length]
    omega
  · intro list member v isTarget
    obtain ⟨block, isPresent, rfl⟩ := List.mem_map.mp member
    obtain ⟨position, found⟩ := List.getElem?_of_mem isPresent
    rw [present_getElem? valid, Option.join_eq_some_iff] at found
    rw [Digraph.size_addEdge, size]
    rcases edgesOf_cases valid found with ⟨_, edges⟩ | ⟨_, _, within⟩
    · rw [edges, List.mem_singleton] at isTarget
      simp only [isTarget, terminator]
      omega
    · exact (within v isTarget).2

end Graph

end FlowRegions.Routine
