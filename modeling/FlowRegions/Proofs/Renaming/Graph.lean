import FlowRegions.Proofs.Digraph.Walks
import Mathlib.Data.List.Perm.Basic
import Mathlib.Data.List.Nodup

/-!
Contract: two graphs that differ in the names of their vertices only.

One graph holds the other under new names when edges follow the names, position
by position, and marks follow them too.  The second graph may have further
vertices; they take no part in its flow.  Predecessors are recorded in the order
in which edges were made, which names do not determine: they agree up to order.

Owns:
- `Digraph.Renamed`, with vertices, edges, walks and dominance under new names;
- that adding vertices and edges and detaching vertices keeps it.
-/

namespace FlowRegions.Digraph

variable {α β : Type}

/-- The second graph holds the first under the names that `name` gives to its
vertices, with payloads turned by `relabel`. -/
structure Renamed (name : Nat → Nat) (relabel : α → β) (graph : Digraph α) (other : Digraph β) :
    Prop where
  injective : Function.Injective name
  name_root : name root = root
  name_terminator : name terminator = terminator
  consistent : graph.Consistent
  consistent' : other.Consistent
  /-- What is added to both graphs gets the next name. -/
  fresh : ∀ k, name (graph.size + k) = other.size + k
  successors_name : ∀ v, other.successors (name v) = (graph.successors v).map name
  marks_name : ∀ v, other.marks (name v) =
    (graph.marks v).map fun mark => (mark.1.map relabel, mark.2)
  /-- What is no name takes no part in the flow. -/
  unnamed : ∀ w, (∀ v, name v ≠ w) → other.successors w = [] ∧ other.isLive w = false

namespace Renamed

variable {name : Nat → Nat} {relabel : α → β} {graph : Digraph α} {other : Digraph β}
  (renamed : Renamed name relabel graph other) {u v : Nat}
include renamed

theorem name_inj : name u = name v ↔ u = v :=
  renamed.injective.eq_iff

theorem name_eq_root : name v = root ↔ v = root := by
  nth_rewrite 1 [← renamed.name_root]
  exact renamed.name_inj

theorem name_eq_terminator : name v = terminator ↔ v = terminator := by
  nth_rewrite 1 [← renamed.name_terminator]
  exact renamed.name_inj

theorem name_size : name graph.size = other.size :=
  renamed.fresh 0

theorem lt_size_iff : name v < other.size ↔ v < graph.size := by
  constructor
  · intro within
    by_contra beyond
    have isNew := renamed.fresh (v - graph.size)
    rw [Nat.add_sub_cancel' (Nat.le_of_not_lt beyond)] at isNew
    omega
  · intro within
    by_contra beyond
    have isNew := renamed.fresh (name v - other.size)
    rw [Nat.add_sub_cancel' (Nat.le_of_not_lt beyond)] at isNew
    have := renamed.injective isNew
    omega

/-! ## Marks -/

theorem payload?_name : other.payload? (name v) = (graph.payload? v).map relabel := by
  rw [payload?_eq_marks, payload?_eq_marks, renamed.marks_name]
  cases graph.marks v <;> rfl

theorem isDetached_name : other.isDetached (name v) = graph.isDetached v := by
  rw [isDetached_eq_marks, isDetached_eq_marks, renamed.marks_name]
  cases graph.marks v <;> rfl

theorem isLive_name : other.isLive (name v) = graph.isLive v := by
  rw [isLive_eq_marks, isLive_eq_marks, renamed.marks_name]
  cases graph.marks v <;> simp

theorem exists_of_isLive {w : Nat} (live : other.isLive w = true) :
    ∃ v, name v = w ∧ graph.isLive v = true := by
  by_contra none
  have isUnnamed : ∀ v, name v ≠ w := by
    intro v same
    apply none
    refine ⟨v, same, ?_⟩
    rw [← renamed.isLive_name, same, live]
  rw [(renamed.unnamed w isUnnamed).2] at live
  cases live

theorem liveIndices_perm : other.liveIndices.Perm (graph.liveIndices.map name) := by
  have distinct {γ : Type} (graph : Digraph γ) : graph.liveIndices.Nodup :=
    List.nodup_range.filter _
  rw [List.perm_ext_iff_of_nodup (distinct other) ((distinct graph).map renamed.injective)]
  intro w
  rw [mem_liveIndices, List.mem_map]
  constructor
  · intro live
    obtain ⟨v, rfl, isLive⟩ := renamed.exists_of_isLive live
    exact ⟨v, (mem_liveIndices graph v).mpr isLive, rfl⟩
  · rintro ⟨v, member, rfl⟩
    rw [renamed.isLive_name]
    exact (mem_liveIndices graph v).mp member

/-! ## Edges -/

theorem mem_successors_name : name v ∈ other.successors (name u) ↔ v ∈ graph.successors u := by
  rw [renamed.successors_name, List.mem_map_of_injective renamed.injective]

/-- Edges join names. -/
theorem exists_of_edge {u' v' : Nat} (edge : v' ∈ other.successors u') :
    ∃ u v, name u = u' ∧ name v = v' ∧ v ∈ graph.successors u := by
  by_cases isName : ∃ u, name u = u'
  · obtain ⟨u, rfl⟩ := isName
    rw [renamed.successors_name] at edge
    obtain ⟨v, isEdge, rfl⟩ := List.mem_map.mp edge
    exact ⟨u, v, rfl, rfl, isEdge⟩
  · rw [(renamed.unnamed u' fun u same => isName ⟨u, same⟩).1] at edge
    cases edge

/-- The predecessors of a vertex are its old ones, in some order. -/
theorem mem_predecessors_name {u' : Nat} :
    u' ∈ other.predecessors (name v) ↔ ∃ u ∈ graph.predecessors v, name u = u' := by
  rw [renamed.consistent'.mem_predecessors]
  constructor
  · intro edge
    obtain ⟨u, v', rfl, same, isEdge⟩ := renamed.exists_of_edge edge
    rw [renamed.name_inj.mp same] at isEdge
    exact ⟨u, renamed.consistent.mem_predecessors.mpr isEdge, rfl⟩
  · rintro ⟨u, member, rfl⟩
    exact renamed.mem_successors_name.mpr (renamed.consistent.mem_predecessors.mp member)

/-! ## Walks -/

omit renamed in
/-- A relation that names follow is followed from step to step. -/
theorem reflTransGen_name_iff (name : Nat → Nat) (steps steps' : Nat → Nat → Prop)
    (keeps : ∀ {u v}, steps u v → steps' (name u) (name v))
    (lifts : ∀ {u w}, steps' (name u) w → ∃ v, name v = w ∧ steps u v) {u w : Nat} :
    Relation.ReflTransGen steps' (name u) w ↔
      ∃ v, name v = w ∧ Relation.ReflTransGen steps u v := by
  constructor
  · intro walk
    induction walk with
    | refl => exact ⟨u, rfl, .refl⟩
    | tail _ step inductionHypothesis =>
        obtain ⟨v, rfl, before⟩ := inductionHypothesis
        obtain ⟨next, rfl, isStep⟩ := lifts step
        exact ⟨next, rfl, before.tail isStep⟩
  · rintro ⟨v, rfl, walk⟩
    exact walk.lift name fun _ _ => keeps

theorem exists_of_reaches {w : Nat} (reaches : other.Reaches .forward root w) :
    ∃ v, name v = w ∧ graph.Reaches .forward root v := by
  rw [reaches_iff, ← renamed.name_root] at reaches
  obtain ⟨v, same, walk⟩ := (reflTransGen_name_iff name (graph.Edge .forward)
    (other.Edge .forward) (fun edge => renamed.mem_successors_name.mpr edge) fun {u w} edge => by
      obtain ⟨u', v, sameSource, sameTarget, isEdge⟩ := renamed.exists_of_edge edge
      rw [renamed.name_inj.mp sameSource] at isEdge
      exact ⟨v, sameTarget, isEdge⟩).mp reaches
  exact ⟨v, same, reaches_iff.mpr walk⟩

theorem reaches_name : other.Reaches .forward root (name v) ↔ graph.Reaches .forward root v := by
  constructor
  · intro reaches
    obtain ⟨u, same, walk⟩ := renamed.exists_of_reaches reaches
    rwa [← renamed.name_inj.mp same]
  · intro reaches
    rw [reaches_iff] at reaches ⊢
    rw [← renamed.name_root]
    exact reaches.lift name fun _ _ edge => renamed.mem_successors_name.mpr edge

theorem dominates_name {n m : Nat} :
    other.Dominates .forward (name n) (name m) ↔ graph.Dominates .forward n m := by
  rw [← not_iff_not, not_dominates_iff, not_dominates_iff]
  have start : root ≠ name n ↔ root ≠ n := by
    rw [ne_comm, ne_eq, renamed.name_eq_root, ← ne_eq, ne_comm]
  have past := reflTransGen_name_iff name (graph.EdgePast .forward n)
    (other.EdgePast .forward (name n)) (u := root) (w := name m)
    (fun edge => ⟨renamed.mem_successors_name.mpr edge.1,
      fun same => edge.2 (renamed.injective same)⟩)
    fun {u w} edge => by
      obtain ⟨u', v, sameSource, sameTarget, isEdge⟩ := renamed.exists_of_edge edge.1
      rw [renamed.name_inj.mp sameSource] at isEdge
      refine ⟨v, sameTarget, isEdge, fun same => edge.2 ?_⟩
      rw [← sameTarget, same]
  rw [renamed.name_root] at past
  refine and_congr start (past.trans ?_)
  constructor
  · rintro ⟨v, same, walk⟩
    rwa [← renamed.name_inj.mp same]
  · exact fun walk => ⟨m, rfl, walk⟩

/-! ## Edits -/

theorem addVertex (payload : α) :
    Renamed name relabel (graph.addVertex payload) (other.addVertex (relabel payload)) where
  injective := renamed.injective
  name_root := renamed.name_root
  name_terminator := renamed.name_terminator
  consistent := renamed.consistent.addVertex payload
  consistent' := renamed.consistent'.addVertex (relabel payload)
  fresh := by
    intro k
    rw [size_addVertex, size_addVertex, Nat.add_assoc, Nat.add_assoc]
    exact renamed.fresh (1 + k)
  successors_name := by
    intro v
    exact (neighbours_addVertex ..).trans
      ((renamed.successors_name v).trans (congrArg _ (neighbours_addVertex ..).symm))
  marks_name := by
    intro v
    rw [marks_addVertex, marks_addVertex, ← renamed.name_size, renamed.marks_name]
    simp only [renamed.name_inj]
    split <;> rfl
  unnamed := by
    intro w isUnnamed
    obtain ⟨leadsNowhere, notLive⟩ := renamed.unnamed w isUnnamed
    refine ⟨(neighbours_addVertex ..).trans leadsNowhere, ?_⟩
    have old : w ≠ other.size := fun same => isUnnamed _ (renamed.name_size.trans same.symm)
    rw [isLive_eq_marks, marks_addVertex, if_neg old, ← isLive_eq_marks, notLive]

theorem addEdges (source : Nat) (targets : List Nat) (sourceWithin : source < graph.size)
    (within : ∀ target ∈ targets, target < graph.size) :
    Renamed name relabel (graph.addEdges source targets)
      (other.addEdges (name source) (targets.map name)) where
  injective := renamed.injective
  name_root := renamed.name_root
  name_terminator := renamed.name_terminator
  consistent := renamed.consistent.addEdges sourceWithin within
  consistent' := by
    refine renamed.consistent'.addEdges (renamed.lt_size_iff.mpr sourceWithin) fun w member => ?_
    obtain ⟨target, isTarget, rfl⟩ := List.mem_map.mp member
    exact renamed.lt_size_iff.mpr (within target isTarget)
  fresh := by
    rw [size_addEdges, size_addEdges]
    exact renamed.fresh
  successors_name := by
    intro v
    rw [successors_addEdges, successors_addEdges, renamed.successors_name]
    simp only [renamed.name_inj, renamed.lt_size_iff]
    split
    · rw [List.map_append]
    · rfl
  marks_name := by
    intro v
    rw [marks_addEdges, marks_addEdges, renamed.marks_name]
  unnamed := by
    intro w isUnnamed
    obtain ⟨leadsNowhere, notLive⟩ := renamed.unnamed w isUnnamed
    rw [successors_addEdges, if_neg (fun both => isUnnamed source both.1), isLive_eq_marks,
      marks_addEdges, ← isLive_eq_marks]
    exact ⟨leadsNowhere, notLive⟩

theorem isolateAll (vertices : List Nat) :
    Renamed name relabel (graph.isolateAll vertices) (other.isolateAll (vertices.map name)) where
  injective := renamed.injective
  name_root := renamed.name_root
  name_terminator := renamed.name_terminator
  consistent := renamed.consistent.isolateAll vertices
  consistent' := renamed.consistent'.isolateAll (vertices.map name)
  fresh := by
    rw [size_isolateAll, size_isolateAll]
    exact renamed.fresh
  successors_name := by
    intro v
    rw [renamed.consistent'.successors_isolateAll, renamed.consistent.successors_isolateAll,
      renamed.successors_name]
    simp only [List.mem_map_of_injective renamed.injective]
    split
    · rfl
    · rw [List.filter_map]
      simp only [Function.comp_def, List.mem_map_of_injective renamed.injective]
  marks_name := by
    intro v
    rw [marks_isolateAll, marks_isolateAll, renamed.marks_name]
    simp only [List.mem_map_of_injective renamed.injective]
    split
    · cases graph.marks v <;> rfl
    · rfl
  unnamed := by
    intro w isUnnamed
    obtain ⟨leadsNowhere, notLive⟩ := renamed.unnamed w isUnnamed
    have kept : w ∉ vertices.map name := by
      intro member
      obtain ⟨v, _, same⟩ := List.mem_map.mp member
      exact isUnnamed v same
    rw [renamed.consistent'.successors_isolateAll, if_neg kept, leadsNowhere, isLive_eq_marks,
      marks_isolateAll, if_neg kept, ← isLive_eq_marks]
    exact ⟨rfl, notLive⟩

end Renamed

end FlowRegions.Digraph
