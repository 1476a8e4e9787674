import FlowRegions.Proofs.Renaming.Regions

/-!
Contract: what steps do to region graphs, under new names.

An edit of a graph and the renamed edit of the renamed graph lead to graphs that
differ in the same names: the vertices an edit adds get the next name on either
side.  Which predecessors an edit turns to another place matters, and not in
which order it does so.

Owns: that collapses, cuts and copies keep `Digraph.Renamed`.
-/

namespace FlowRegions.Digraph.Renamed

open RegionGraph

variable {name : Nat → Nat} {graph other : RegionGraph}
  (renamed : Renamed name (Node.relabel name name) graph other)
include renamed

theorem turn_name (old new target : Nat) :
    turn (name old) (name new) (name target) = name (turn old new target) := by
  unfold turn
  simp only [renamed.name_inj]
  split <;> rfl

theorem map_turn_name (old new : Nat) (targets : List Nat) :
    (targets.map name).map (turn (name old) (name new)) =
      (targets.map (turn old new)).map name := by
  rw [List.map_map, List.map_map]
  exact List.map_congr_left fun target _ => renamed.turn_name old new target

/-- Edges from the same sources are turned to another place. -/
theorem redirects (sources sources' : List Nat) (old new : Nat) (different : old ≠ new)
    (within : new < graph.size) (same : ∀ p, name p ∈ sources' ↔ p ∈ sources) :
    Renamed name (Node.relabel name name)
      (sources.foldl (fun graph p => graph.redirect p old new) graph)
      (sources'.foldl (fun graph p => graph.redirect p (name old) (name new)) other) where
  injective := renamed.injective
  name_root := renamed.name_root
  name_terminator := renamed.name_terminator
  consistent := consistent_foldl_redirect _ _ renamed.consistent within
  consistent' := consistent_foldl_redirect _ _ renamed.consistent' (renamed.lt_size_iff.mpr within)
  fresh := by
    rw [size_foldl_redirect, size_foldl_redirect]
    exact renamed.fresh
  successors_name := by
    intro v
    have different' : name old ≠ name new := fun equal => different (renamed.injective equal)
    rw [successors_foldl_redirect _ different', successors_foldl_redirect _ different,
      renamed.successors_name]
    simp only [same, renamed.lt_size_iff]
    split
    · exact renamed.map_turn_name old new _
    · rfl
  marks_name := by
    intro v
    rw [marks_foldl_redirect, marks_foldl_redirect, renamed.marks_name]
  unnamed := by
    intro w isUnnamed
    obtain ⟨leadsNowhere, notLive⟩ := renamed.unnamed w isUnnamed
    have different' : name old ≠ name new := fun equal => different (renamed.injective equal)
    rw [successors_foldl_redirect _ different', leadsNowhere,
      isLive_congr_marks (marks_foldl_redirect _ _ _ _ w)]
    exact ⟨by split <;> rfl, notLive⟩

theorem redirectOutside (members : List Nat) (entry new : Nat) (different : entry ≠ new)
    (within : new < graph.size) :
    Renamed name (Node.relabel name name) (graph.redirectOutside members entry new)
      (other.redirectOutside (members.map name) (name entry) (name new)) := by
  apply renamed.redirects _ _ _ _ different within
  intro p
  rw [List.mem_filter, List.mem_filter, mem_entrants renamed.consistent',
    mem_entrants renamed.consistent, renamed.mem_successors_name,
    contains_map_name renamed.injective]

theorem withPart (part : Option Node) :
    Renamed name (Node.relabel name name) (graph.withPart part)
      (other.withPart (part.map (Node.relabel name name))) := by
  cases part with
  | none => exact renamed
  | some node =>
      have added := (renamed.addVertex node).isolateAll [graph.size]
      rw [List.map_singleton, renamed.name_size] at added
      exact added

theorem collapsedTargets_name (collapse : Collapse) (new : Nat) :
    collapsedTargets (collapse.relabel name) (name new) =
      (collapsedTargets collapse new).map name := by
  have turned : ((collapse.relabel name).out.map fun target =>
        if target = (collapse.relabel name).entry then name new else target) =
      (collapse.out.map fun target =>
        if target = collapse.entry then new else target).map name :=
    renamed.map_turn_name collapse.entry new collapse.out
  have returns : (collapse.relabel name).out.contains terminator =
      collapse.out.contains terminator := by
    have known := contains_map_name renamed.injective collapse.out terminator
    rwa [renamed.name_terminator] at known
  unfold collapsedTargets
  dsimp only
  rw [turned, returns]
  show (if collapse.returns && !collapse.out.contains terminator then _ else _) = _
  split
  · rw [List.map_append, List.map_singleton, renamed.name_terminator]
  · rfl

/-- A collapse that fits keeps to the names. -/
theorem collapse {collapse : Collapse} (fits : graph.Fits collapse) :
    Renamed name (Node.relabel name name) (graph.collapse collapse).2
      (other.collapse (collapse.relabel name)).2 := by
  have part := partAdded renamed.consistent collapse.part
  have added := renamed.withPart collapse.part
  have newer : graph.size ≤ (graph.withPart collapse.part).size := by
    rw [part.size_eq]
    omega
  have entryBelow := lt_size_of_isLive (fits.live _ fits.entry_mem)
  have sameSize : Digraph.size (other.withPart (collapse.relabel name).part) =
      name (graph.withPart collapse.part).size := added.name_size.symm
  have entered := (added.addVertex collapse.node).redirectOutside collapse.members collapse.entry
    (graph.withPart collapse.part).size (by omega) (by rw [size_addVertex]; omega)
  rw [collapse_eq, collapse_eq, sameSize, renamed.collapsedTargets_name]
  apply Renamed.isolateAll
  apply entered.addEdges
  · rw [size_redirectOutside, size_addVertex]
    omega
  · intro target member
    rw [size_redirectOutside, size_addVertex]
    rcases mem_collapsedTargets.mp member with ⟨out, isOut, rfl⟩ | ⟨rfl, _⟩
    · obtain ⟨m, _, edge⟩ := fits.out_edge out isOut
      have := renamed.consistent.mem_neighbours_lt edge
      unfold turn
      split <;> omega
    · have : terminator < graph.size := start_lt_size renamed.consistent .backward
      omega

/-- A cut keeps to the names. -/
theorem cut {source target : Nat} (within : target < graph.size) :
    Renamed name (Node.relabel name name)
      ((graph.addVertex { shape := .jump target }).redirect source target graph.size)
      ((other.addVertex { shape := .jump (name target) }).redirect (name source) (name target)
        other.size) := by
  have added := renamed.addVertex { shape := .jump target }
  have turned := added.redirects [source] [name source] target graph.size (by omega)
    (by rw [size_addVertex]; omega) fun p => by
      rw [List.mem_singleton, List.mem_singleton, renamed.name_inj]
  rw [renamed.name_size] at turned
  exact turned

/-! ## Copies -/

theorem linkCopy {copy target : Nat} (copyWithin : copy < graph.size)
    (within : target < graph.size) :
    Renamed name (Node.relabel name name) (RegionGraph.linkCopy copy graph target)
      (RegionGraph.linkCopy (name copy) other (name target)) := by
  have known : RegionGraph.table other (name target) =
      (RegionGraph.table graph target).map (Node.relabel name name) := renamed.payload?_name
  unfold RegionGraph.linkCopy
  rw [known]
  cases RegionGraph.table graph target with
  | none => exact renamed.addEdges copy [target] copyWithin (List.forall_mem_singleton.mpr within)
  | some node =>
      obtain ⟨shape, cond⟩ := node
      cases shape with
      | jump place =>
          have added := renamed.addVertex { shape := .jump place }
          have linked := added.addEdges copy [graph.size] (by rw [size_addVertex]; omega)
            (List.forall_mem_singleton.mpr (by rw [size_addVertex]; omega))
          rw [List.map_singleton, renamed.name_size] at linked
          exact linked
      | _ => exact renamed.addEdges copy [target] copyWithin (List.forall_mem_singleton.mpr within)

theorem linkCopies (copy : Nat) (targets : List Nat) (copyWithin : copy < graph.size)
    (within : ∀ target ∈ targets, target < graph.size) :
    Renamed name (Node.relabel name name) (targets.foldl (RegionGraph.linkCopy copy) graph)
      ((targets.map name).foldl (RegionGraph.linkCopy (name copy)) other) := by
  induction targets generalizing graph other with
  | nil => exact renamed
  | cons target rest inductionHypothesis =>
      have first := renamed.linkCopy copyWithin (within target List.mem_cons_self)
      have grown := size_le_linkCopy copy graph target
      refine inductionHypothesis first (by omega) fun later member => ?_
      have := within later (List.mem_cons_of_mem target member)
      omega

/-- A copy for some predecessors keeps to the names. -/
theorem giveCopy {v : Nat} {outside outside' : List Nat} (within : v < graph.size)
    (same : outside'.Perm (outside.map name)) :
    Renamed name (Node.relabel name name) (RegionGraph.giveCopy graph v outside)
      (RegionGraph.giveCopy other (name v) outside') := by
  have added := renamed.addVertex { shape := .tail v }
  have linked := added.linkCopies graph.size (graph.successors v) (by
    rw [size_addVertex]
    omega) fun target edge => by
      have := renamed.consistent.mem_neighbours_lt edge
      rw [size_addVertex]
      omega
  have copyWithin := size_le_linkCopies graph.size (graph.addVertex { shape := .tail v })
    (graph.successors v)
  rw [size_addVertex] at copyWithin
  unfold RegionGraph.giveCopy
  dsimp only
  rw [renamed.successors_name, ← renamed.name_size]
  refine linked.redirects _ _ _ _ (by omega) (by omega) fun p => ?_
  rw [same.mem_iff, List.mem_map_of_injective renamed.injective]

end FlowRegions.Digraph.Renamed
