import FlowRegions.Proofs.Interval.SingleEntry
import Mathlib.Data.Set.Card

/-!
Contract: the derived sequence is a finite chain of exact quotients.

The loop that derives graphs is given without fuel as a relation, so that its end is
a theorem and not part of its definition.  Every pass collapses the intervals of a
graph.  A derived graph that is no limit has fewer intervals than the graph before it,
which ends the loop.

Owns:
- `Digraph.reachedCount`, and that a graph has as many intervals as vertices that are
  reached exactly when it is a limit;
- `Digraph.Derives`, the loop, with the one result it has;
- `Digraph.Quotients`, what one pass makes of a graph, and `Digraph.QuotientChain`.
-/

namespace FlowRegions.Digraph

variable {α : Type} {graph : Digraph α}

/-! ## Headers among the vertices that are reached -/

noncomputable def reachedCount (graph : Digraph α) : Nat :=
  {v | graph.Reaches .forward root v}.ncard

theorem finite_reached (consistent : graph.Consistent) :
    {v | graph.Reaches .forward root v}.Finite :=
  (Set.finite_lt_nat graph.size).subset fun _ reaches =>
    reaches.lt_size consistent (start_lt_size consistent .forward)

theorem HeadersOf.length_eq {heads : List Nat} (headers : HeadersOf graph heads) :
    heads.length = {v | graph.Header v}.ncard := by
  have same : {v | graph.Header v} = (heads.toFinset : Set Nat) := by
    ext v
    simp [headers.mem_iff]
  rw [same, Set.ncard_coe_finset, List.toFinset_card_of_nodup headers.nodup]

/-- The headers are among the vertices that are reached. -/
theorem length_intervals_le (consistent : graph.Consistent) :
    graph.intervals.length ≤ graph.reachedCount := by
  obtain ⟨heads, headers, same⟩ := exists_headersOf consistent
  rw [same, List.length_map, headers.length_eq]
  exact Set.ncard_le_ncard (fun _ header => header.reaches consistent)
    (finite_reached consistent)

section Attached

variable (consistent : graph.Consistent)
  (attached : ∀ {u v}, v ∈ graph.successors u → graph.isDetached v = false)
include consistent attached

/-- In a limit, and in no other graph, every vertex that is reached is a header. -/
theorem isLimit_intervals_iff_header : isLimit graph.intervals = true ↔
    ∀ v, graph.Reaches .forward root v → graph.Header v := by
  obtain ⟨heads, headers, same⟩ := exists_headersOf consistent
  rw [same, isLimit_iff headers consistent]
  constructor
  · intro single v reaches
    obtain ⟨head, header, member⟩ := exists_header consistent attached reaches
    exact single head header v member ▸ header
  · intro isHeader head header v member
    have reaches := (header.reaches consistent).trans
      (reaches_of_closure (member.closure consistent))
    exact (isHeader v reaches).eq_of_absorbed member

theorem length_intervals_eq_iff :
    graph.intervals.length = graph.reachedCount ↔ isLimit graph.intervals = true := by
  rw [isLimit_intervals_iff_header consistent attached]
  obtain ⟨heads, headers, same⟩ := exists_headersOf consistent
  rw [same, List.length_map, headers.length_eq]
  have included : {v | graph.Header v} ⊆ {v | graph.Reaches .forward root v} :=
    fun _ header => header.reaches consistent
  constructor
  · intro sameCount v reaches
    have all := Set.eq_of_subset_of_ncard_le included sameCount.ge (finite_reached consistent)
    exact all.ge reaches
  · intro isHeader
    exact congrArg Set.ncard (included.antisymm isHeader)

end Attached

/-! ## The loop without fuel -/

/-- What the loop has still to return when it stands at a graph. -/
inductive Derives : {β : Type} → Digraph β → List (Digraph Interval × List Interval) → Prop
  | stop {β : Type} {graph : Digraph β} (limit : isLimit graph.intervals = true) :
      Derives graph []
  | collapse {β : Type} {graph : Digraph β} {later : List (Digraph Interval × List Interval)}
      (more : isLimit graph.intervals = false)
      (rest : Derives (graph.quotient graph.intervals) later) :
      Derives graph ((graph.quotient graph.intervals,
        (graph.quotient graph.intervals).intervals) :: later)

/-- The loop has one result. -/
theorem Derives.unique {later other : List (Digraph Interval × List Interval)}
    (derives : Derives graph later) (derives' : Derives graph other) : later = other := by
  induction derives generalizing other with
  | stop limit =>
      cases derives' with
      | stop => rfl
      | collapse more =>
          rw [limit] at more
          cases more
  | collapse more _ inductionHypothesis =>
      cases derives' with
      | stop limit =>
          rw [limit] at more
          cases more
      | collapse _ rest => rw [inductionHypothesis rest]

theorem length_intervals_pos (consistent : graph.Consistent) : 0 < graph.intervals.length := by
  obtain ⟨heads, headers, same⟩ := exists_headersOf consistent
  rw [same, List.length_map]
  exact List.length_pos_of_mem ((headers.mem_iff root).mpr .root)

theorem flowing_derived (consistent : graph.Consistent) :
    (graph.quotient graph.intervals).Flowing := by
  obtain ⟨heads, headers, same⟩ := exists_headersOf consistent
  rw [same]
  exact flowing_quotient headers consistent

/-- A derived graph that is no limit has fewer intervals than the graph before. -/
theorem length_intervals_derived_lt (consistent : graph.Consistent)
    (more : isLimit (graph.quotient graph.intervals).intervals = false) :
    (graph.quotient graph.intervals).intervals.length < graph.intervals.length := by
  obtain ⟨heads, headers, same⟩ := exists_headersOf consistent
  rw [same] at more ⊢
  obtain ⟨next, nextHeaders, same'⟩ := exists_headersOf (consistent_quotient headers consistent)
  rw [same'] at more ⊢
  rw [List.length_map, List.length_map]
  exact length_headers_lt headers consistent nextHeaders more

/-- The fuel is not used up. -/
theorem derives_derivedFrom (fuel : Nat) (consistent : graph.Consistent)
    (enough : isLimit graph.intervals = true ∨ graph.intervals.length ≤ fuel) :
    Derives graph (derivedFrom fuel graph graph.intervals) := by
  induction fuel generalizing α graph with
  | zero =>
      have positive := length_intervals_pos consistent
      exact .stop (enough.resolve_right (by omega))
  | succ fuel inductionHypothesis =>
      rw [derivedFrom]
      split
      · rename_i limit
        exact .stop limit
      · rename_i notLimit
        refine .collapse (Bool.eq_false_iff.mpr notLimit) (inductionHypothesis
          (flowing_derived consistent).consistent (or_iff_not_imp_left.mpr fun notLast => ?_))
        have fewer := length_intervals_derived_lt consistent (Bool.eq_false_iff.mpr notLast)
        have covered := enough.resolve_left notLimit
        omega

theorem derives_derivedSequence (consistent : graph.Consistent) :
    Derives graph graph.derivedSequence.derived := by
  refine derives_derivedFrom graph.size consistent (.inr ?_)
  obtain ⟨heads, headers, same⟩ := exists_headersOf consistent
  rw [same, List.length_map]
  exact length_le_of_lt headers.nodup fun v isHead =>
    ((headers.mem_iff v).mp isHead).lt_size consistent

/-! ## What one pass makes of a graph -/

/-- A graph whose vertices are the intervals of another and whose edges are those
between them. -/
structure Quotients (graph : Digraph α) (intervals : List Interval) (next : Digraph Interval) :
    Prop where
  size : next.size = intervals.length + 1
  /-- Every interval but the first, which becomes the root, is the payload of its
  vertex. -/
  payload : ∀ i interval, intervals[i + 1]? = some interval →
    next.payload? (quotientVertex (i + 1)) = some interval
  reached : ∀ i < intervals.length, next.Reaches .forward root (quotientVertex i)
  fewer : intervals.length < graph.reachedCount
  ends : ∀ x y, y ∈ next.successors x →
    ∃ i < intervals.length, ∃ j < intervals.length, x = quotientVertex i ∧ y = quotientVertex j
  edge_iff : ∀ i j source target, intervals[i]? = some source → intervals[j]? = some target →
    i ≠ j → (quotientVertex j ∈ next.successors (quotientVertex i) ↔
      ∃ u ∈ source.members, ∃ v ∈ target.members, v ∈ graph.successors u)
  simple : ∀ x, x ∉ next.successors x
  nodup : ∀ x, (next.successors x).Nodup

/-- Edges that are added unless they are there do not repeat. -/
theorem nodup_linkOnce (edges : List (Nat × Nat)) (nodup : ∀ v, (graph.successors v).Nodup)
    (v : Nat) : ((graph.linkOnce edges).successors v).Nodup := by
  induction edges generalizing graph with
  | nil => exact nodup v
  | cons edge rest inductionHypothesis =>
      have first (w : Nat) : ((graph.addEdgeOnce edge.1 edge.2).successors w).Nodup := by
        unfold addEdgeOnce
        split
        · exact nodup w
        · rename_i notThere
          rw [successors_addEdge]
          split
          · rename_i isSource
            refine (nodup w).append (List.nodup_singleton _) ?_
            simpa [hasEdge, isSource.1] using notThere
          · exact nodup w
      exact inductionHypothesis first

theorem payload?_quotient (intervals : List Interval) (i : Nat) :
    (graph.quotient intervals).payload? (quotientVertex (i + 1)) = intervals[i + 1]? := by
  rw [quotient_eq, payload?_eq_marks, marks_linkOnce, marks_edgeless]
  have behind : ¬ terminator + (i + 1) < 2 := by
    simp only [terminator]
    omega
  have position : terminator + (i + 1) - 2 = i := by
    simp only [terminator]
    omega
  rw [quotientVertex, if_neg behind, position, List.getElem?_drop, Nat.add_comm 1 i]
  cases intervals[i + 1]? <;> rfl

theorem HeadersOf.standIn_eq {heads : List Nat} (headers : HeadersOf graph heads) {i head : Nat}
    (found : heads[i]? = some head) : standIn heads head = quotientVertex i := by
  rw [standIn, position_unique headers.nodup (List.getElem?_idxOf (List.mem_of_getElem? found))
    found]

section Pass

variable (consistent : graph.Consistent)
  (attached : ∀ {u v}, v ∈ graph.successors u → graph.isDetached v = false)
include consistent

/-- The law of the edges, for headers: what enters another interval enters its header. -/
theorem standIn_mem_successors_iff {heads : List Nat} (headers : HeadersOf graph heads)
    {h k : Nat} (isHead : h ∈ heads) (isHead' : k ∈ heads) (different : h ≠ k) :
    standIn heads k ∈
        (graph.quotient (heads.map (Interval.ofHead graph))).successors (standIn heads h) ↔
      ∃ u, graph.Absorbed h u ∧ ∃ v, graph.Absorbed k v ∧ v ∈ graph.successors u := by
  have header := (headers.mem_iff h).mp isHead
  have header' := (headers.mem_iff k).mp isHead'
  rw [mem_successors_quotient headers consistent]
  constructor
  · rintro ⟨h', _, k', _, same, same', p, entered, _, inside⟩
    obtain rfl := (standIn_inj isHead).mp same
    obtain rfl := (standIn_inj isHead').mp same'
    exact ⟨p, inside, k, .head, consistent.mem_predecessors.mp entered⟩
  · rintro ⟨u, inside, v, inside', edge⟩
    have outside : ¬ graph.Absorbed k u := fun own =>
      different (header.unique header' inside own)
    obtain rfl := inside'.eq_head_of_edge consistent edge outside
    exact ⟨h, isHead, v, isHead', rfl, rfl, u, consistent.mem_predecessors.mpr edge, outside,
      inside⟩

include attached

theorem quotients_quotient (more : isLimit graph.intervals = false) :
    graph.Quotients graph.intervals (graph.quotient graph.intervals) := by
  have fewer : graph.intervals.length < graph.reachedCount := by
    refine (length_intervals_le consistent).lt_of_ne fun all => ?_
    rw [(length_intervals_eq_iff consistent attached).mp all] at more
    cases more
  have flowing := flowing_derived consistent
  obtain ⟨heads, headers, same⟩ := exists_headersOf consistent
  rw [same] at fewer flowing ⊢
  refine
    { size := by rw [size_quotient headers, List.length_map]
      payload := fun i interval found => (payload?_quotient _ i).trans found
      reached := fun i within => ?_
      fewer := fewer
      ends := fun x y edge => ?_
      edge_iff := fun i j source target atI atJ different => ?_
      simple := flowing.simple
      nodup := fun x => ?_ }
  · rw [List.length_map] at within
    have found := List.getElem?_eq_getElem within
    rw [← headers.standIn_eq found]
    exact reaches_standIn headers consistent
      ((headers.mem_iff _).mp (List.mem_of_getElem? found))
  · obtain ⟨h, isHead, k, isHead', rfl, rfl, _⟩ :=
      (mem_successors_quotient headers consistent).mp edge
    rw [List.length_map]
    exact ⟨heads.idxOf h, List.idxOf_lt_length_of_mem isHead, heads.idxOf k,
      List.idxOf_lt_length_of_mem isHead', rfl, rfl⟩
  · rw [List.getElem?_map, Option.map_eq_some_iff] at atI atJ
    obtain ⟨h, atI, rfl⟩ := atI
    obtain ⟨k, atJ, rfl⟩ := atJ
    have isHead := List.mem_of_getElem? atI
    have isHead' := List.mem_of_getElem? atJ
    have notSame : h ≠ k := by
      rintro rfl
      exact different (position_unique headers.nodup atI atJ)
    rw [← headers.standIn_eq atI, ← headers.standIn_eq atJ,
      standIn_mem_successors_iff consistent headers isHead isHead' notSame]
    simp only [(complete_of_mem headers consistent isHead).mem_iff,
      (complete_of_mem headers consistent isHead').mem_iff]
  · rw [quotient_eq]
    refine nodup_linkOnce _ (fun v => ?_) x
    rw [successors_edgeless]
    exact List.nodup_nil

end Pass

/-! ## The whole sequence -/

/-- Graphs each of which is derived from the one before, up to one whose intervals are
single vertices. -/
inductive QuotientChain :
    {β : Type} → Digraph β → List (Digraph Interval × List Interval) → Prop
  | last {β : Type} {graph : Digraph β}
      (single : ∀ interval ∈ graph.intervals, interval.members = [interval.head]) :
      QuotientChain graph []
  | link {β : Type} {graph : Digraph β} {next : Digraph Interval}
      {later : List (Digraph Interval × List Interval)}
      (quotients : graph.Quotients graph.intervals next) (chain : QuotientChain next later) :
      QuotientChain graph ((next, next.intervals) :: later)

theorem members_eq_of_isLimit (consistent : graph.Consistent)
    (limit : isLimit graph.intervals = true) {interval : Interval}
    (member : interval ∈ graph.intervals) : interval.members = [interval.head] := by
  have small : interval.size ≤ 1 := of_decide_eq_true (List.all_eq_true.mp limit interval member)
  obtain ⟨heads, headers, same⟩ := exists_headersOf consistent
  rw [same] at member
  obtain ⟨head, isHead, rfl⟩ := List.mem_map.mp member
  have complete := complete_of_mem headers consistent isHead
  have holdsHead := (complete.mem_iff head).mpr .head
  obtain ⟨only, found⟩ := List.length_eq_one_iff.mp
    (Nat.le_antisymm small (List.length_pos_of_mem holdsHead))
  rw [found, List.mem_singleton] at holdsHead
  rw [found, complete.head_eq, holdsHead]

theorem Derives.chain {later : List (Digraph Interval × List Interval)}
    (derives : Derives graph later) (consistent : graph.Consistent)
    (attached : ∀ {u v}, v ∈ graph.successors u → graph.isDetached v = false) :
    QuotientChain graph later := by
  induction derives with
  | stop limit => exact .last fun _ => members_eq_of_isLimit consistent limit
  | collapse more _ inductionHypothesis =>
      have flowing := flowing_derived consistent
      exact .link (quotients_quotient consistent attached more)
        (inductionHypothesis flowing.consistent flowing.attached)

theorem QuotientChain.limit_single {later : List (Digraph Interval × List Interval)}
    (chain : QuotientChain graph later) :
    ∀ interval ∈ DerivedSequence.limit ⟨graph.intervals, later⟩,
      interval.members = [interval.head] := by
  induction chain with
  | last single => exact single
  | link _ _ inductionHypothesis =>
      rw [limit_cons]
      exact inductionHypothesis

theorem getLast?_levels (sequence : DerivedSequence) :
    sequence.levels.getLast? = some sequence.limit := by
  rw [DerivedSequence.levels, List.getLast?_cons, List.getLast?_map]
  rfl

/-- The loop that derives graphs ends with one list of intervals more than graphs.  Every
graph is the exact quotient of the one before by its intervals, with fewer vertices than
the one before has reached ones, and the last intervals are single vertices. -/
theorem derivedSequence_quotientChain (built : graph.Built)
    (attached : ∀ {u v}, v ∈ graph.successors u →
      graph.isDetached u = false ∧ graph.isDetached v = false) :
    (∀ later, Derives graph later ↔ later = graph.derivedSequence.derived) ∧
    graph.derivedSequence.levels.length = graph.derivedSequence.derived.length + 1 ∧
    QuotientChain graph graph.derivedSequence.derived ∧
    ∃ last, graph.derivedSequence.levels.getLast? = some last ∧
      ∀ interval ∈ last, interval.members = [interval.head] := by
  have consistent := built.consistent
  have derives := derives_derivedSequence consistent
  have chain := derives.chain consistent fun edge => (attached edge).2
  refine ⟨fun later => ⟨fun other => other.unique derives, fun same => same ▸ derives⟩, ?_, chain,
    _, getLast?_levels _, chain.limit_single⟩
  rw [DerivedSequence.levels, List.length_cons, List.length_map]

/-- A loop within a loop, with a self-edge and an edge from a vertex that is not
reached. -/
def nestedLoops : Digraph Unit :=
  ofEdges 7 [(0, 2), (2, 3), (3, 4), (4, 5), (5, 3), (5, 5), (3, 6), (6, 7), (7, 2), (8, 4)]

theorem derivedSequence_quotientChain_nestedLoops :
    nestedLoops.derivedSequence.levels.map (List.map Interval.members) =
        [[[0], [2], [3, 6, 7], [4], [5]], [[0], [2], [3, 4, 5]], [[0], [2, 3]], [[0, 2]], [[0]]] ∧
      QuotientChain nestedLoops nestedLoops.derivedSequence.derived := by
  have each : ∀ u < nestedLoops.size, ∀ v ∈ nestedLoops.successors u,
      nestedLoops.isDetached u = false ∧ nestedLoops.isDetached v = false := by
    decide +kernel
  refine ⟨by decide +kernel, (derivedSequence_quotientChain (built_ofEdges (by decide)) ?_).2.2.1⟩
  exact fun edge => each _ (lt_size_of_mem_neighbours edge) _ edge

end FlowRegions.Digraph
