import FlowRegions.Proofs.Interval.Partition

/-!
Contract: the intervals that the search closes are what the definition of an
interval asks for.

The search knows nothing of walks: it compares lists of predecessors with the
members found so far.  A member other than the header was absorbed after all its
predecessors, and from this alone follow the single entry, the dominance of the
header and its place on every cycle.  An interval is closed when it absorbs no
more, which makes it maximal.

Owns:
- `Interval.SingleEntry`, the definition in terms of edges, walks and cycles;
- that it holds of every interval closed along every run of the search, and so of
  `Digraph.intervals`.
-/

namespace FlowRegions

variable {α : Type} {graph : Digraph α}

/-- An interval is entered at its header only. -/
theorem Digraph.Absorbed.eq_head_of_edge (consistent : graph.Consistent) {head u v : Nat}
    (member : graph.Absorbed head v) (edge : v ∈ graph.successors u)
    (outside : ¬ graph.Absorbed head u) : v = head := by
  cases member with
  | head => rfl
  | absorb _ _ _ inside => exact absurd (inside u (consistent.mem_predecessors.mpr edge)) outside

namespace Interval

/-- A maximal set of vertices with one entry, in which every cycle passes the
header. -/
structure SingleEntry (graph : Digraph α) (interval : Interval) : Prop where
  /-- Every edge from outside, from a vertex that is reached or not, leads to the
  header. -/
  entry : ∀ u v, u ∉ interval.members → v ∈ interval.members → v ∈ graph.successors u →
    v = interval.head
  dominates : ∀ v ∈ interval.members, graph.Dominates .forward interval.head v
  /-- Every cycle that passes a member, not only those inside, passes the header. -/
  cycles : ∀ path, graph.Cycle path → ∀ v ∈ path, v ∈ interval.members → interval.head ∈ path
  /-- No other vertex is entered, and from inside only. -/
  maximal : ∀ v, v ∉ interval.members → v ≠ Digraph.root → graph.predecessors v ≠ [] →
    ∃ p ∈ graph.predecessors v, p ∉ interval.members

theorem Complete.singleEntry (consistent : graph.Consistent)
    (attached : ∀ {u v}, v ∈ graph.successors u → graph.isDetached v = false)
    {interval : Interval} (complete : interval.Complete graph interval.head) :
    interval.SingleEntry graph where
  entry u v outside inside edge := by
    rw [complete.mem_iff] at outside inside
    exact inside.eq_head_of_edge consistent edge outside
  dominates v inside := ((complete.mem_iff v).mp inside).dominates consistent
  cycles path cycle v onPath inside :=
    ((complete.mem_iff v).mp inside).mem_of_cycle consistent cycle onPath
  maximal v outside notRoot entered := by
    by_contra none
    push Not at none
    obtain ⟨p, enters⟩ := List.exists_mem_of_ne_nil _ entered
    have isAttached := attached (consistent.mem_predecessors.mp enters)
    have absorbed := absorbs_iff.mpr ⟨notRoot, isAttached, outside, entered, none⟩
    rw [complete.settled v] at absorbed
    cases absorbed

end Interval

namespace Digraph

/-- Whichever absorbable vertex the search takes next, every interval that it closes,
and so every interval of the graph, is a maximal single-entry set whose header
dominates it and lies on its cycles. -/
theorem intervals_singleEntry (built : graph.Built)
    (attached : ∀ {u v}, v ∈ graph.successors u →
      graph.isDetached u = false ∧ graph.isDetached v = false) :
    (∀ search, Relation.ReflTransGen (IntervalSearch.Step graph) .start search →
      ∀ interval ∈ search.closed, interval.SingleEntry graph) ∧
    ∀ interval ∈ graph.intervals, interval.SingleEntry graph := by
  have consistent := built.consistent
  have valid := IntervalSearch.valid_start graph
  have closed (search : IntervalSearch)
      (reached : Relation.ReflTransGen (IntervalSearch.Step graph) .start search)
      (interval : Interval) (member : interval ∈ search.closed) : interval.SingleEntry graph :=
    ((valid.run consistent reached).complete interval member).singleEntry consistent
      fun edge => (attached edge).2
  obtain ⟨known, reached⟩ := valid.run_intervalsFrom consistent graph.size (by simp)
  exact ⟨closed, closed _ reached⟩

/-- A loop entered twice over from its header and left to the root, and a vertex that is
also entered from one the root does not reach. -/
def returning : Digraph Unit :=
  ofEdges 4 [(0, 2), (2, 3), (2, 3), (3, 2), (3, 0), (2, 4), (4, 1), (5, 4)]

theorem intervals_singleEntry_returning :
    returning.intervals = [⟨0, [0]⟩, ⟨2, [2, 3]⟩, ⟨4, [4, 1]⟩] ∧
      ∀ interval ∈ returning.intervals, interval.SingleEntry returning := by
  have each : ∀ u < returning.size, ∀ v ∈ returning.successors u,
      returning.isDetached u = false ∧ returning.isDetached v = false := by
    decide +kernel
  refine ⟨by decide +kernel, (intervals_singleEntry (built_ofEdges (by decide)) ?_).2⟩
  exact fun edge => each _ (lt_size_of_mem_neighbours edge) _ edge

end Digraph

end FlowRegions
