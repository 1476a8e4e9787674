import FlowRegions.Proofs.Digraph.Edgeless
import FlowRegions.Proofs.Interval.Headers
import Mathlib.Data.List.Perm.Subperm

/-!
Contract: the graph derived from another, and how many intervals it has.

A vertex of the derived graph stands for a header.  Its vertices are joined when
an edge enters the interval of the second header, at the header, from the
interval of the first.

Owns:
- `Digraph.mem_successors_quotient`, the edges of a derived graph;
- `Digraph.length_headers_lt`, that a derived graph that is no limit has fewer
  intervals than the graph before it.
-/

namespace FlowRegions.Digraph

variable {α : Type} {graph : Digraph α}

/-! ## Graphs whose edges are added once -/

def linkOnce (graph : Digraph α) (edges : List (Nat × Nat)) : Digraph α :=
  edges.foldl (fun graph edge => graph.addEdgeOnce edge.1 edge.2) graph

theorem size_linkOnce (graph : Digraph α) (edges : List (Nat × Nat)) :
    (graph.linkOnce edges).size = graph.size := by
  induction edges generalizing graph with
  | nil => rfl
  | cons edge rest inductionHypothesis =>
      have first : (graph.addEdgeOnce edge.1 edge.2).size = graph.size := by
        unfold addEdgeOnce
        split
        · rfl
        · rw [size_addEdge]
      exact (inductionHypothesis _).trans first

theorem marks_linkOnce (graph : Digraph α) (edges : List (Nat × Nat)) (v : Nat) :
    (graph.linkOnce edges).marks v = graph.marks v := by
  induction edges generalizing graph with
  | nil => rfl
  | cons edge rest inductionHypothesis =>
      have first : (graph.addEdgeOnce edge.1 edge.2).marks v = graph.marks v := by
        unfold addEdgeOnce
        split
        · rfl
        · rw [marks_addEdge]
      exact (inductionHypothesis _).trans first

theorem linked_linkOnce (consistent : graph.Consistent) {edges : List (Nat × Nat)}
    (within : ∀ edge ∈ edges, edge.1 < graph.size ∧ edge.2 < graph.size) :
    (graph.linkOnce edges).Consistent ∧ ∀ u v, v ∈ (graph.linkOnce edges).successors u ↔
      v ∈ graph.successors u ∨ (u, v) ∈ edges := by
  induction edges generalizing graph with
  | nil => exact ⟨consistent, fun u v => by simp [linkOnce]⟩
  | cons edge rest inductionHypothesis =>
      obtain ⟨source, target⟩ := edge
      obtain ⟨sourceWithin, targetWithin⟩ := within _ List.mem_cons_self
      have first : (graph.addEdgeOnce source target).Consistent ∧
          (graph.addEdgeOnce source target).size = graph.size ∧
          ∀ u v, v ∈ (graph.addEdgeOnce source target).successors u ↔
            v ∈ graph.successors u ∨ (u, v) = (source, target) := by
        unfold addEdgeOnce
        split
        · rename_i there
          refine ⟨consistent, rfl, fun u v => (or_iff_left_of_imp ?_).symm⟩
          rintro ⟨rfl, rfl⟩
          simpa [hasEdge] using there
        · refine ⟨consistent.addEdge sourceWithin targetWithin, size_addEdge .., fun u v => ?_⟩
          rw [successors_addEdge, Prod.mk.injEq]
          by_cases isSource : source = u
          · subst isSource
            simp [sourceWithin]
          · have notSource : u ≠ source := fun same => isSource same.symm
            simp [isSource, notSource]
      obtain ⟨isConsistent, sameSize, edges⟩ := first
      obtain ⟨final, linked⟩ := inductionHypothesis isConsistent fun edge member => by
        rw [sameSize]
        exact within edge (List.mem_cons_of_mem _ member)
      refine ⟨final, fun u v => (linked u v).trans ?_⟩
      rw [edges, List.mem_cons, or_assoc]

/-! ## Derived graphs -/

def quotientEdges (graph : Digraph α) (intervals : List Interval) : List (Nat × Nat) :=
  intervals.zipIdx.flatMap fun (interval, target) =>
    ((graph.predecessors interval.head).filter fun source => !interval.contains source).flatMap
      fun source => (intervals.zipIdx.filter fun (other, _) => other.contains source).map
        fun (_, position) => (quotientVertex position, quotientVertex target)

theorem quotient_eq (graph : Digraph α) (intervals : List Interval) :
    graph.quotient intervals =
      (edgeless (intervals.drop 1)).linkOnce (graph.quotientEdges intervals) := by
  unfold quotient linkOnce quotientEdges edgeless
  simp only [List.foldl_flatMap, List.foldl_map, List.foldl_filter]

theorem mem_quotientEdges {intervals : List Interval} {u v : Nat} :
    (u, v) ∈ graph.quotientEdges intervals ↔
      ∃ i j source target, intervals[i]? = some source ∧ intervals[j]? = some target ∧
        u = quotientVertex i ∧ v = quotientVertex j ∧
        ∃ p ∈ graph.predecessors target.head, p ∉ target.members ∧ p ∈ source.members := by
  simp only [quotientEdges, List.mem_flatMap, Prod.exists, List.mem_zipIdx_iff_getElem?,
    List.mem_filter, List.mem_map, Interval.contains, Bool.not_eq_true', List.contains_iff_mem,
    Prod.mk.injEq]
  constructor
  · rintro ⟨target, j, isTarget, p, ⟨entered, outside⟩, source, i, ⟨isSource, inside⟩, rfl, rfl⟩
    exact ⟨i, j, source, target, isSource, isTarget, rfl, rfl, p, entered, by simpa using outside,
      inside⟩
  · rintro ⟨i, j, source, target, isSource, isTarget, rfl, rfl, p, entered, outside, inside⟩
    exact ⟨target, j, isTarget, p, ⟨entered, by simpa using outside⟩, source, i, ⟨isSource, inside⟩,
      rfl, rfl⟩

def standIn (heads : List Nat) (head : Nat) : Nat :=
  quotientVertex (heads.idxOf head)

theorem quotientVertex_injective : Function.Injective quotientVertex := by
  intro i j same
  cases i <;> cases j <;> simp only [quotientVertex, root, terminator] at same <;> omega

theorem standIn_inj {heads : List Nat} {h k : Nat} (isHead : h ∈ heads) :
    standIn heads h = standIn heads k ↔ h = k :=
  ⟨fun same => (List.idxOf_inj isHead).mp (quotientVertex_injective same), congrArg _⟩

theorem standIn_lt {heads : List Nat} {h : Nat} (isHead : h ∈ heads) :
    standIn heads h < heads.length + 1 := by
  have within := List.idxOf_lt_length_of_mem isHead
  unfold standIn
  cases atIndex : heads.idxOf h with
  | zero => exact Nat.succ_pos _
  | succ i =>
      simp only [quotientVertex, terminator]
      omega

/-- No vertex of a derived graph is detached. -/
theorem isDetached_quotient (intervals : List Interval) (v : Nat) :
    (graph.quotient intervals).isDetached v = false := by
  rw [quotient_eq, isDetached_eq_marks, marks_linkOnce, marks_edgeless]
  split
  · rfl
  · cases (intervals.drop 1)[v - 2]? <;> rfl

section Headers

variable {heads : List Nat} (headers : HeadersOf graph heads)
include headers

theorem standIn_root : standIn heads root = root := by
  obtain ⟨rest, rfl⟩ := List.head?_eq_some_iff.mp headers.first
  rw [standIn, List.idxOf_cons_self]
  rfl

theorem size_quotient :
    (graph.quotient (heads.map (Interval.ofHead graph))).size = heads.length + 1 := by
  obtain ⟨rest, isCons⟩ := List.head?_eq_some_iff.mp headers.first
  rw [quotient_eq, size_linkOnce, size_edgeless, List.length_drop, List.length_map, isCons,
    List.length_cons]
  omega

variable (consistent : graph.Consistent)
include consistent

theorem complete_of_mem {h : Nat} (isHead : h ∈ heads) :
    (Interval.ofHead graph h).Complete graph h :=
  Interval.complete_ofHead (((headers.mem_iff h).mp isHead).lt_size consistent)

/-- Edges of the derived graph lead from interval to header. -/
theorem mem_quotientEdges_iff {u v : Nat} :
    (u, v) ∈ graph.quotientEdges (heads.map (Interval.ofHead graph)) ↔
      ∃ h ∈ heads, ∃ k ∈ heads, u = standIn heads h ∧ v = standIn heads k ∧
        ∃ p ∈ graph.predecessors k, ¬ graph.Absorbed k p ∧ graph.Absorbed h p := by
  have isAt {h i : Nat} (found : heads[i]? = some h) : heads.idxOf h = i :=
    position_unique headers.nodup (List.getElem?_idxOf (List.mem_of_getElem? found)) found
  rw [mem_quotientEdges]
  constructor
  · rintro ⟨i, j, source, target, isSource, isTarget, rfl, rfl, p, entered, outside, inside⟩
    rw [List.getElem?_map, Option.map_eq_some_iff] at isSource isTarget
    obtain ⟨h, atI, rfl⟩ := isSource
    obtain ⟨k, atJ, rfl⟩ := isTarget
    have isHead := List.mem_of_getElem? atI
    have isHead' := List.mem_of_getElem? atJ
    have complete := complete_of_mem headers consistent isHead'
    rw [complete.mem_iff] at outside
    rw [(complete_of_mem headers consistent isHead).mem_iff] at inside
    rw [complete.head_eq] at entered
    exact ⟨h, isHead, k, isHead', by rw [standIn, isAt atI], by rw [standIn, isAt atJ], p, entered,
      outside, inside⟩
  · rintro ⟨h, isHead, k, isHead', rfl, rfl, p, entered, outside, inside⟩
    have complete := complete_of_mem headers consistent isHead'
    refine ⟨heads.idxOf h, heads.idxOf k, Interval.ofHead graph h, Interval.ofHead graph k, ?_, ?_,
      rfl, rfl, p, ?_, ?_, ?_⟩
    · rw [List.getElem?_map, List.getElem?_idxOf isHead]
      rfl
    · rw [List.getElem?_map, List.getElem?_idxOf isHead']
      rfl
    · rwa [complete.head_eq]
    · rwa [complete.mem_iff]
    · rwa [(complete_of_mem headers consistent isHead).mem_iff]

theorem linked_quotient :
    (graph.quotient (heads.map (Interval.ofHead graph))).Consistent ∧
      ∀ u v, v ∈ (graph.quotient (heads.map (Interval.ofHead graph))).successors u ↔
        (u, v) ∈ graph.quotientEdges (heads.map (Interval.ofHead graph)) := by
  have size := size_quotient headers
  rw [quotient_eq, size_linkOnce] at size
  have within : ∀ edge ∈ graph.quotientEdges (heads.map (Interval.ofHead graph)),
      edge.1 < (edgeless ((heads.map (Interval.ofHead graph)).drop 1)).size ∧
        edge.2 < (edgeless ((heads.map (Interval.ofHead graph)).drop 1)).size := by
    intro edge member
    obtain ⟨h, isHead, k, isHead', source, target, _⟩ :=
      (mem_quotientEdges_iff headers consistent).mp member
    rw [size, source, target]
    exact ⟨standIn_lt isHead, standIn_lt isHead'⟩
  rw [quotient_eq]
  obtain ⟨final, linked⟩ := linked_linkOnce (consistent_edgeless _) within
  refine ⟨final, fun u v => (linked u v).trans ?_⟩
  rw [successors_edgeless]
  simp

theorem consistent_quotient : (graph.quotient (heads.map (Interval.ofHead graph))).Consistent :=
  (linked_quotient headers consistent).1

theorem mem_successors_quotient {u v : Nat} :
    v ∈ (graph.quotient (heads.map (Interval.ofHead graph))).successors u ↔
      ∃ h ∈ heads, ∃ k ∈ heads, u = standIn heads h ∧ v = standIn heads k ∧
        ∃ p ∈ graph.predecessors k, ¬ graph.Absorbed k p ∧ graph.Absorbed h p :=
  ((linked_quotient headers consistent).2 u v).trans (mem_quotientEdges_iff headers consistent)

/-! ## Limits -/

/-- Intervals that are single vertices. -/
theorem isLimit_iff : isLimit (heads.map (Interval.ofHead graph)) = true ↔
    ∀ head, graph.Header head → ∀ v, graph.Absorbed head v → v = head := by
  have single {h : Nat} (isHead : h ∈ heads) :
      (Interval.ofHead graph h).size ≤ 1 ↔ ∀ v, graph.Absorbed h v → v = h := by
    have complete := complete_of_mem headers consistent isHead
    have holdsHead := (complete.mem_iff h).mpr .head
    constructor
    · intro small v member
      have inside := (complete.mem_iff v).mpr member
      unfold Interval.size at small
      match found : (Interval.ofHead graph h).members with
      | [] =>
          rw [found] at holdsHead
          cases holdsHead
      | [only] =>
          rw [found, List.mem_singleton] at holdsHead inside
          rw [inside, holdsHead]
      | _ :: _ :: _ =>
          rw [found] at small
          simp at small
    · intro only
      have alone : (Interval.ofHead graph h).members ⊆ [h] := fun v member =>
        List.mem_singleton.mpr (only v ((complete.mem_iff v).mp member))
      exact (List.subperm_of_subset complete.nodup alone).length_le
  unfold isLimit
  rw [List.all_map, List.all_eq_true]
  constructor
  · intro small head isHeader
    have isHead := (headers.mem_iff head).mpr isHeader
    exact (single isHead).mp (of_decide_eq_true (small head isHead))
  · intro settled head isHead
    exact decide_eq_true ((single isHead).mpr (settled head ((headers.mem_iff head).mp isHead)))

/-- A derived graph that is no limit has fewer intervals than the graph before. -/
theorem length_headers_lt {next : List Nat}
    (nextHeaders : HeadersOf (graph.quotient (heads.map (Interval.ofHead graph))) next)
    (notLimit : isLimit (next.map (Interval.ofHead (graph.quotient
      (heads.map (Interval.ofHead graph))))) = false) : next.length < heads.length := by
  have isConsistent := consistent_quotient headers consistent
  have stands {v p : Nat}
      (entered : p ∈ (graph.quotient (heads.map (Interval.ofHead graph))).predecessors v) :
      v ∈ heads.map (standIn heads) := by
    rw [isConsistent.mem_predecessors] at entered
    obtain ⟨_, _, k, isHead, _, rfl, _⟩ := (mem_successors_quotient headers consistent).mp entered
    exact List.mem_map_of_mem isHead
  have nextStands : ∀ v ∈ next, v ∈ heads.map (standIn heads) := by
    intro v isNext
    cases (nextHeaders.mem_iff v).mp isNext with
    | root =>
        refine List.mem_map.mpr ⟨root, (headers.mem_iff root).mpr .root, standIn_root headers⟩
    | frontier _ _ _ entered _ => exact stands entered
  -- Some vertex is absorbed and heads no interval.
  obtain ⟨head, isHeader, v, member, different⟩ : ∃ head,
      (graph.quotient (heads.map (Interval.ofHead graph))).Header head ∧ ∃ v,
        (graph.quotient (heads.map (Interval.ofHead graph))).Absorbed head v ∧ v ≠ head := by
    by_contra none
    push Not at none
    rw [(isLimit_iff nextHeaders isConsistent).mpr none] at notLimit
    cases notLimit
  have notHead : v ∉ next := fun isNext =>
    different (((nextHeaders.mem_iff v).mp isNext).eq_of_absorbed member)
  have isStandIn : v ∈ heads.map (standIn heads) := by
    cases member with
    | head => exact absurd rfl different
    | absorb _ _ entered _ => exact stands entered
  have others : next ⊆ (heads.map (standIn heads)).erase v := by
    intro w isNext
    have isOther : w ≠ v := by
      rintro rfl
      exact notHead isNext
    exact (List.mem_erase_of_ne isOther).mpr (nextStands w isNext)
  have fewer := (List.subperm_of_subset nextHeaders.nodup others).length_le
  have positive := List.length_pos_of_mem isStandIn
  rw [List.length_erase_of_mem isStandIn] at fewer
  rw [List.length_map] at fewer positive
  omega

end Headers

theorem limit_cons (first intervals : List Interval) (next : Digraph Interval)
    (later : List (Digraph Interval × List Interval)) :
    DerivedSequence.limit ⟨first, (next, intervals) :: later⟩ =
      DerivedSequence.limit ⟨intervals, later⟩ := by
  unfold DerivedSequence.limit
  dsimp only
  rw [List.getLast?_cons]
  cases later.getLast? <;> rfl

/-- The limit of a graph is its own intervals, or the limit of its derived graph. -/
theorem limit_derivedFrom (graph : Digraph α) (fuel : Nat) (intervals : List Interval) :
    DerivedSequence.limit ⟨intervals, derivedFrom (fuel + 1) graph intervals⟩ =
      if isLimit intervals then intervals
      else DerivedSequence.limit ⟨(graph.quotient intervals).intervals,
        derivedFrom fuel (graph.quotient intervals) (graph.quotient intervals).intervals⟩ := by
  rw [derivedFrom]
  split
  · rfl
  · exact limit_cons ..

theorem limit_of_isLimit (graph : Digraph α) (fuel : Nat) {intervals : List Interval}
    (limit : isLimit intervals = true) :
    DerivedSequence.limit ⟨intervals, derivedFrom fuel graph intervals⟩ = intervals := by
  cases fuel with
  | zero => rfl
  | succ fuel => rw [limit_derivedFrom, if_pos limit]

end FlowRegions.Digraph
