import FlowRegions.Proofs.Digraph.Consistency
import Mathlib.Data.List.Induction

/-!
Contract: graphs made of vertices only, and of vertices that are then linked
one after the other.

Owns: `Digraph.edgeless`, the graph that a list of payloads makes,
`Digraph.linkAll`, which gives every vertex its targets in turn, and
`Digraph.ofEdges`, the graph that a list of edges makes.
-/

namespace FlowRegions.Digraph

variable {α : Type} {graph : Digraph α}

def edgeless (payloads : List α) : Digraph α :=
  payloads.foldl addVertex empty

theorem edgeless_concat (payloads : List α) (payload : α) :
    edgeless (payloads ++ [payload]) = (edgeless payloads).addVertex payload := by
  rw [edgeless, List.foldl_append]
  rfl

theorem size_edgeless (payloads : List α) : (edgeless payloads).size = payloads.length + 2 := by
  induction payloads using List.reverseRecOn with
  | nil => rfl
  | append_singleton payloads payload inductionHypothesis =>
      rw [edgeless_concat, size_addVertex, inductionHypothesis, List.length_append]
      rfl

theorem consistent_edgeless (payloads : List α) : (edgeless payloads).Consistent := by
  induction payloads using List.reverseRecOn with
  | nil => exact .empty
  | append_singleton payloads payload inductionHypothesis =>
      rw [edgeless_concat]
      exact inductionHypothesis.addVertex payload

theorem successors_edgeless (payloads : List α) (v : Nat) :
    (edgeless payloads).successors v = [] := by
  induction payloads using List.reverseRecOn with
  | nil =>
      match v with
      | 0 | 1 | _ + 2 => rfl
  | append_singleton payloads payload inductionHypothesis =>
      rw [edgeless_concat]
      exact (neighbours_addVertex _ _ .forward v).trans inductionHypothesis

theorem marks_edgeless (payloads : List α) (v : Nat) : (edgeless payloads).marks v =
    if v < 2 then some (none, false)
    else payloads[v - 2]?.map fun payload => (some payload, false) := by
  induction payloads using List.reverseRecOn with
  | nil =>
      match v with
      | 0 | 1 | _ + 2 => rfl
  | append_singleton payloads payload inductionHypothesis =>
      rw [edgeless_concat, marks_addVertex, inductionHypothesis, size_edgeless]
      rcases Nat.lt_trichotomy v (payloads.length + 2) with before | rfl | beyond
      · rw [if_neg (by omega)]
        split
        · rfl
        · rw [List.getElem?_append_left (by omega)]
      · rw [if_pos rfl, if_neg (by omega), Nat.add_sub_cancel, List.getElem?_concat_length]
        rfl
      · have length : (payloads ++ [payload]).length = payloads.length + 1 := List.length_append
        rw [if_neg (by omega), if_neg (by omega), if_neg (by omega),
          List.getElem?_eq_none (by omega), List.getElem?_eq_none (by omega)]

/-! ## Linking every vertex -/

def linkAll (graph : Digraph α) (targets : List (List Nat)) (first : Nat) : Digraph α :=
  (targets.zipIdx first).foldl
    (fun graph (entry : List Nat × Nat) => graph.addEdges (entry.2 + 2) entry.1) graph

theorem linkAll_cons (graph : Digraph α) (head : List Nat) (rest : List (List Nat))
    (first : Nat) : graph.linkAll (head :: rest) first =
      (graph.addEdges (first + 2) head).linkAll rest (first + 1) := by
  rw [linkAll, List.zipIdx_cons, List.foldl_cons]
  rfl

theorem size_linkAll (graph : Digraph α) (targets : List (List Nat)) (first : Nat) :
    (graph.linkAll targets first).size = graph.size := by
  induction targets generalizing graph first with
  | nil => rfl
  | cons head rest inductionHypothesis =>
      rw [linkAll_cons, inductionHypothesis, size_addEdges]

theorem marks_linkAll (graph : Digraph α) (targets : List (List Nat)) (first v : Nat) :
    (graph.linkAll targets first).marks v = graph.marks v := by
  induction targets generalizing graph first with
  | nil => rfl
  | cons head rest inductionHypothesis =>
      rw [linkAll_cons, inductionHypothesis, marks_addEdges]

theorem Consistent.linkAll (consistent : graph.Consistent) {targets : List (List Nat)}
    {first : Nat} (sources : first + targets.length + 2 ≤ graph.size)
    (within : ∀ list ∈ targets, ∀ t ∈ list, t < graph.size) :
    (graph.linkAll targets first).Consistent := by
  induction targets generalizing graph first with
  | nil => exact consistent
  | cons head rest inductionHypothesis =>
      rw [List.length_cons] at sources
      rw [linkAll_cons]
      have linked : (graph.addEdges (first + 2) head).Consistent :=
        consistent.addEdges (by omega) (within head List.mem_cons_self)
      refine inductionHypothesis linked (by rw [size_addEdges]; omega)
        fun list member t isTarget => ?_
      rw [size_addEdges]
      exact within list (List.mem_cons_of_mem _ member) t isTarget

theorem successors_linkAll (graph : Digraph α) (targets : List (List Nat)) (first v : Nat)
    (sources : first + targets.length + 2 ≤ graph.size) :
    (graph.linkAll targets first).successors v = graph.successors v ++
      if first + 2 ≤ v then (targets[v - (first + 2)]?).getD [] else [] := by
  induction targets generalizing graph first with
  | nil => simp [linkAll]
  | cons head rest inductionHypothesis =>
      rw [List.length_cons] at sources
      rw [linkAll_cons, inductionHypothesis _ _ (by rw [size_addEdges]; omega),
        successors_addEdges]
      rcases Nat.lt_trichotomy v (first + 2) with before | rfl | behind
      · rw [if_neg (by omega), if_neg (by omega), if_neg (by omega)]
      · rw [if_pos ⟨rfl, by omega⟩, if_neg (by omega), if_pos (Nat.le_refl _), Nat.sub_self]
        simp
      · rw [if_neg (by omega), if_pos (by omega), if_pos (by omega),
          show v - (first + 2) = (v - (first + 1 + 2)) + 1 by omega, List.getElem?_cons_succ]

/-! ## Graphs from their edges -/

def ofEdges (count : Nat) (edges : List (Nat × Nat)) : Digraph Unit :=
  edges.foldl (fun graph edge => graph.addEdge edge.1 edge.2) (edgeless (List.replicate count ()))

theorem built_edgeless (payloads : List α) : (edgeless payloads).Built := by
  induction payloads using List.reverseRecOn with
  | nil => exact .empty
  | append_singleton payloads payload inductionHypothesis =>
      rw [edgeless_concat]
      exact .addVertex inductionHypothesis payload

theorem Built.addEdge (built : graph.Built) {u v : Nat} (uWithin : u < graph.size)
    (vWithin : v < graph.size) : (graph.addEdge u v).Built := by
  apply built.edit (.link u v)
  simp only [Digraph.edit, index?_of_lt uWithin, index?_of_lt vWithin]

/-- A graph made of edges between its vertices is one that edits produce. -/
theorem built_ofEdges {count : Nat} {edges : List (Nat × Nat)}
    (within : ∀ edge ∈ edges, edge.1 < count + 2 ∧ edge.2 < count + 2) :
    (ofEdges count edges).Built := by
  have size : (edgeless (List.replicate count ())).size = count + 2 := by
    rw [size_edgeless, List.length_replicate]
  have built := built_edgeless (List.replicate count ())
  unfold ofEdges
  generalize edgeless (List.replicate count ()) = graph at size built
  induction edges generalizing graph with
  | nil => exact built
  | cons edge rest inductionHypothesis =>
      obtain ⟨sourceWithin, targetWithin⟩ := within edge List.mem_cons_self
      rw [List.foldl_cons]
      apply inductionHypothesis fun later member => within later (List.mem_cons_of_mem _ member)
      · rw [size_addEdge, size]
      · exact built.addEdge (by omega) (by omega)

end FlowRegions.Digraph
