import FlowRegions.Proofs.Interval.Reducibility

/-!
Contract: the intervals of a graph partition the vertices reached from the root,
whichever absorbable vertex is taken next while they are found.

The search is a transition system without fuel.  It opens the next pending
header, adds one vertex that the open interval absorbs, or closes an interval
that absorbs nothing more and makes its frontier pending.  Neither an absorbed
vertex nor a frontier is checked against the closed intervals; that no vertex is
taken twice follows from the headers alone.

Owns:
- `IntervalSearch` with its steps, every run of which comes to an end;
- `Digraph.Partitions`, what a run ends with;
- the run that ends with `Digraph.intervals`.
-/

namespace FlowRegions

variable {α : Type}

/-! ## Complete intervals -/

namespace Interval

variable {graph : Digraph α} {interval other : Interval} {head : Nat}

/-- A complete interval absorbs nothing more. -/
theorem Complete.settled (complete : Complete graph head interval) (v : Nat) :
    interval.absorbs graph v = false := by
  by_contra absorbs
  obtain ⟨notRoot, attached, outside, entered, inside⟩ :=
    absorbs_iff.mp (Bool.eq_true_of_not_eq_false absorbs)
  obtain ⟨p, enters⟩ := List.exists_mem_of_ne_nil _ entered
  refine outside ((complete.mem_iff v).mpr (.absorb notRoot attached enters fun q enters => ?_))
  exact (complete.mem_iff q).mp (inside q enters)

/-- Two complete intervals of one header have one frontier, in whatever order
they were grown. -/
theorem Complete.frontier_eq (complete : Complete graph head interval)
    (complete' : Complete graph head other) (known : List Nat) :
    interval.frontier graph known = other.frontier graph known := by
  have same : interval.contains = other.contains := by
    funext v
    rw [Bool.eq_iff_iff]
    simp [contains, complete.mem_iff, complete'.mem_iff]
  simp only [frontier, same]

end Interval

/-! ## The search, step by step -/

/-- A search for intervals: those that are closed, the one that is open, the
headers whose intervals are pending, and all headers known so far. -/
structure IntervalSearch where
  closed : List Interval
  opened : Option Interval
  pending : List Nat
  known : List Nat

namespace IntervalSearch

def start : IntervalSearch :=
  ⟨[], none, [Digraph.root], [Digraph.root]⟩

/-- One step of the search.  An interval is closed only when it absorbs no vertex
at all. -/
inductive Step (graph : Digraph α) : IntervalSearch → IntervalSearch → Prop
  | opens {closed : List Interval} {head : Nat} {pending known : List Nat} :
      Step graph ⟨closed, none, head :: pending, known⟩
        ⟨closed, some (.singleton head), pending, known⟩
  | absorbs {closed : List Interval} {interval : Interval} {pending known : List Nat} {v : Nat}
      (absorbed : interval.absorbs graph v = true) :
      Step graph ⟨closed, some interval, pending, known⟩
        ⟨closed, some { interval with members := interval.members ++ [v] }, pending, known⟩
  | closes {closed : List Interval} {interval : Interval} {pending known : List Nat}
      (settled : ∀ v, interval.absorbs graph v = false) :
      Step graph ⟨closed, some interval, pending, known⟩
        ⟨closed ++ [interval], none, pending ++ interval.frontier graph known,
          known ++ interval.frontier graph known⟩

def heads (search : IntervalSearch) : List Nat :=
  search.opened.toList.map Interval.head ++ search.pending

/-- What every step keeps. -/
structure Valid (graph : Digraph α) (search : IntervalSearch) : Prop where
  heading : graph.Heading (search.closed.map Interval.head) search.heads search.known
  first : [Digraph.root] <+: search.closed.map Interval.head ++ search.heads
  growing : ∀ interval ∈ search.opened, interval.Growing graph interval.head
  complete : ∀ interval ∈ search.closed, interval.Complete graph interval.head

variable {graph : Digraph α} {search next : IntervalSearch}

/-- The header of the open interval is a vertex. -/
theorem Valid.head_lt (consistent : graph.Consistent) (valid : Valid graph search)
    {interval : Interval} (isOpen : search.opened = some interval) :
    interval.head < graph.size := by
  refine (valid.heading.header _ (valid.heading.known_perm.mem_iff.mpr ?_)).lt_size consistent
  exact List.mem_append_right _ (by simp [heads, isOpen])

theorem valid_start (graph : Digraph α) : Valid graph start where
  heading := Digraph.heading_start
  first := List.prefix_rfl
  growing := by simp [start]
  complete := by simp [start]

theorem Valid.step (consistent : graph.Consistent) (valid : Valid graph search)
    (step : Step graph search next) : Valid graph next := by
  cases step with
  | opens =>
      refine ⟨valid.heading, valid.first, fun interval isOpen => ?_, valid.complete⟩
      obtain rfl := Option.mem_some.mp isOpen
      exact Interval.growing_singleton _
  | absorbs absorbed =>
      refine ⟨valid.heading, valid.first, fun interval isOpen => ?_, valid.complete⟩
      obtain rfl := Option.mem_some.mp isOpen
      exact (valid.growing _ rfl).add absorbed
  | @closes closed interval pending known settled =>
      have complete := (valid.growing interval rfl).complete fun v _ => settled v
      -- The order in which vertices were absorbed does not show in the frontier.
      have sameFrontier := complete.frontier_eq
        (Interval.complete_ofHead (valid.head_lt consistent rfl)) known
      have heading := valid.heading.next consistent
      dsimp only at heading
      rw [← sameFrontier] at heading
      refine ⟨by simpa [heads] using heading, ?_, (fun interval isOpen => nomatch isOpen),
        fun interval member => ?_⟩
      · have longer := valid.first.trans (List.prefix_append _ (interval.frontier graph known))
        simpa [heads] using longer
      · rcases List.mem_append.mp member with before | last
        · exact valid.complete interval before
        · rw [List.mem_singleton.mp last]
          exact complete

/-- What every step keeps holds all along a run. -/
theorem Valid.run (consistent : graph.Consistent) (valid : Valid graph search)
    (run : Relation.ReflTransGen (Step graph) search next) : Valid graph next := by
  induction run with
  | refl => exact valid
  | tail _ step inductionHypothesis => exact inductionHypothesis.step consistent step

/-! ## Every run comes to an end -/

/-- How many steps are left at most: while an interval is open, one for each
vertex outside it, and for each interval to come one more than its vertices. -/
def remaining (graph : Digraph α) (search : IntervalSearch) : Nat :=
  (graph.size - search.closed.length) * (graph.size + 2) +
    match search.opened with
    | none => graph.size + 1
    | some interval => graph.size - interval.size

theorem Valid.remaining_lt (consistent : graph.Consistent) (valid : Valid graph search)
    (step : Step graph search next) : remaining graph next < remaining graph search := by
  cases step with
  | opens =>
      simp only [remaining]
      omega
  | @absorbs closed interval pending known v absorbed =>
      have grown := (valid.growing interval rfl).add absorbed
      have bound := grown.size_le (valid.head_lt consistent rfl)
      simp only [remaining, Interval.size, List.length_append, List.length_singleton] at bound ⊢
      omega
  | @closes closed interval pending known settled =>
      -- The closed intervals and this one have different headers.
      have bound := valid.heading.length_le consistent
      simp only [heads, Option.toList_some, List.map_cons, List.length_append, List.length_cons,
        List.length_map] at bound
      obtain ⟨less, left⟩ : ∃ less, graph.size - closed.length = less + 1 :=
        ⟨graph.size - closed.length - 1, by omega⟩
      have leftAfter : graph.size - (closed.length + 1) = less := by omega
      simp only [remaining, List.length_append, List.length_singleton, left, leftAfter,
        Nat.succ_mul]
      omega

theorem Valid.acc (consistent : graph.Consistent) (valid : Valid graph search) :
    Acc (fun later earlier => Step graph earlier later) search := by
  induction bound : remaining graph search using Nat.strongRecOn generalizing search with
  | ind count inductionHypothesis =>
      refine ⟨search, fun next step => ?_⟩
      have fewer := valid.remaining_lt consistent step
      exact inductionHypothesis _ (bound ▸ fewer) (valid.step consistent step) rfl

/-- A search can go on as long as an interval is open or pending. -/
theorem ended_of_stuck (stuck : ∀ next, ¬ Step graph search next) :
    search.opened = none ∧ search.pending = [] := by
  obtain ⟨closed, opened, pending, known⟩ := search
  cases opened with
  | none =>
      cases pending with
      | nil => exact ⟨rfl, rfl⟩
      | cons head pending => exact absurd .opens (stuck _)
  | some interval =>
      by_cases absorbs : ∃ v, interval.absorbs graph v = true
      · obtain ⟨v, absorbed⟩ := absorbs
        exact absurd (.absorbs absorbed) (stuck _)
      · refine absurd (.closes fun v => ?_) (stuck _)
        exact Bool.eq_false_of_not_eq_true fun absorbed => absorbs ⟨v, absorbed⟩

end IntervalSearch

/-! ## What a run ends with -/

/-- Each vertex that the root reaches belongs to one of the intervals, and no
other vertex does. -/
structure Digraph.Partitions (graph : Digraph α) (intervals : List Interval) : Prop where
  heads_nodup : (intervals.map Interval.head).Nodup
  first : (intervals.map Interval.head).head? = some root
  head_mem : ∀ interval ∈ intervals, interval.head ∈ interval.members
  disjoint : intervals.Pairwise fun earlier later => earlier.members.Disjoint later.members
  mem_iff : ∀ v, (∃ interval ∈ intervals, v ∈ interval.members) ↔ graph.Reaches .forward root v

namespace IntervalSearch

variable {graph : Digraph α}

theorem Valid.partitions (consistent : graph.Consistent)
    (attached : ∀ {u v}, v ∈ graph.successors u → graph.isDetached v = false)
    {closed : List Interval} {known : List Nat} (valid : Valid graph ⟨closed, none, [], known⟩) :
    graph.Partitions closed := by
  obtain ⟨nodup, isHead⟩ := valid.heading.ended
  have header {interval : Interval} (member : interval ∈ closed) :
      graph.Header interval.head :=
    (isHead _).mp (List.mem_map_of_mem member)
  have absorbed {interval : Interval} (member : interval ∈ closed) {v : Nat} :=
    (valid.complete interval member).mem_iff v
  refine ⟨nodup, ?_, fun interval member => (absorbed member).mpr .head, ?_, fun v => ⟨?_, ?_⟩⟩
  · obtain ⟨later, same⟩ := valid.first
    simp only [heads, Option.toList_none, List.map_nil, List.append_nil] at same
    rw [← same]
    rfl
  · have distinct := List.pairwise_map.mp nodup
    refine distinct.imp_of_mem fun before after different v inEarlier inLater => ?_
    exact different ((header before).unique (header after) ((absorbed before).mp inEarlier)
      ((absorbed after).mp inLater))
  · rintro ⟨interval, member, inside⟩
    have within := ((absorbed member).mp inside).closure consistent
    exact ((header member).reaches consistent).trans (Digraph.reaches_of_closure within)
  · intro reaches
    obtain ⟨head, isHeader, inside⟩ := Digraph.exists_header consistent attached reaches
    obtain ⟨interval, member, rfl⟩ := List.mem_map.mp ((isHead head).mpr isHeader)
    exact ⟨interval, member, (absorbed member).mpr inside⟩

/-! ## The run of sweeps -/

section Sweeps

variable {closed : List Interval} {pending known : List Nat}

theorem run_sweep (graph : Digraph α) (interval : Interval) :
    Relation.ReflTransGen (Step graph) ⟨closed, some interval, pending, known⟩
      ⟨closed, some (interval.sweep graph), pending, known⟩ := by
  rw [Interval.sweep]
  generalize graph.indices = vertices
  induction vertices generalizing interval with
  | nil => exact .refl
  | cons v rest inductionHypothesis =>
      rw [List.foldl_cons]
      split
      · rename_i absorbed
        exact .head (.absorbs absorbed) (inductionHypothesis _)
      · exact inductionHypothesis interval

theorem run_grow (graph : Digraph α) (fuel : Nat) (interval : Interval) :
    Relation.ReflTransGen (Step graph) ⟨closed, some interval, pending, known⟩
      ⟨closed, some (interval.grow graph fuel), pending, known⟩ := by
  induction fuel generalizing interval with
  | zero => exact .refl
  | succ fuel inductionHypothesis =>
      rw [Interval.grow]
      split
      · exact .refl
      · exact (run_sweep graph interval).trans (inductionHypothesis _)

/-- From the opening of a header to the closing of its interval. -/
theorem run_ofHead (closed : List Interval) (pending known : List Nat) {head : Nat}
    (within : head < graph.size) :
    Relation.ReflTransGen (Step graph) ⟨closed, none, head :: pending, known⟩
      ⟨closed ++ [Interval.ofHead graph head], none,
        pending ++ (Interval.ofHead graph head).frontier graph known,
        known ++ (Interval.ofHead graph head).frontier graph known⟩ :=
  .head .opens ((run_grow graph graph.size (.singleton head)).tail
    (.closes (Interval.complete_ofHead within).settled))

/-- The fuel covers every header that comes up. -/
theorem Valid.run_intervalsFrom (consistent : graph.Consistent)
    (valid : Valid graph ⟨closed, none, pending, known⟩) (fuel : Nat)
    (enough : graph.size ≤ closed.length + fuel) :
    ∃ known', Relation.ReflTransGen (Step graph) ⟨closed, none, pending, known⟩
      ⟨closed ++ graph.intervalsFrom fuel known pending, none, [], known'⟩ := by
  induction fuel generalizing closed pending known with
  | zero =>
      have bound := valid.heading.length_le consistent
      simp only [heads, Option.toList_none, List.map_nil, List.nil_append, List.length_map] at bound
      obtain rfl : pending = [] := List.length_eq_zero_iff.mp (by omega)
      exact ⟨known, by rw [Digraph.intervalsFrom, List.append_nil]⟩
  | succ fuel inductionHypothesis =>
      cases pending with
      | nil => exact ⟨known, by rw [Digraph.intervalsFrom, List.append_nil]; omega⟩
      | cons head pending =>
          have isKnown := valid.heading.known_perm.mem_iff.mpr
            (List.mem_append_right _ List.mem_cons_self)
          have within := (valid.heading.header head isKnown).lt_size consistent
          have run := run_ofHead closed pending known within
          obtain ⟨known', rest⟩ := inductionHypothesis (valid.run consistent run) (by
            rw [List.length_append, List.length_singleton]
            omega)
          refine ⟨known', ?_⟩
          rw [Digraph.intervalsFrom]
          simpa using run.trans rest

end Sweeps

end IntervalSearch

namespace Digraph

variable {graph : Digraph α}

/-- The search for intervals ends, whichever absorbable vertex it takes next;
wherever it ends, and so with the intervals of the graph, the vertices reached
from the root are parted among intervals with distinct headers. -/
theorem intervals_partition (built : graph.Built)
    (attached : ∀ {u v}, v ∈ graph.successors u →
      graph.isDetached u = false ∧ graph.isDetached v = false) :
    Acc (fun later earlier => IntervalSearch.Step graph earlier later) .start ∧
    (∀ search, Relation.ReflTransGen (IntervalSearch.Step graph) .start search →
      (∀ next, ¬ IntervalSearch.Step graph search next) →
      search.opened = none ∧ search.pending = [] ∧ graph.Partitions search.closed) ∧
    (∃ known, Relation.ReflTransGen (IntervalSearch.Step graph) .start
      ⟨graph.intervals, none, [], known⟩) ∧
    graph.Partitions graph.intervals := by
  have consistent := built.consistent
  have valid := IntervalSearch.valid_start graph
  have run := valid.run_intervalsFrom consistent graph.size (by simp)
  refine ⟨valid.acc consistent, fun search reached stuck => ?_, run, ?_⟩
  · have reachedValid := valid.run consistent reached
    obtain ⟨closed, opened, pending, known⟩ := search
    obtain ⟨rfl, rfl⟩ := IntervalSearch.ended_of_stuck stuck
    exact ⟨rfl, rfl, reachedValid.partitions consistent fun edge => (attached edge).2⟩
  · obtain ⟨known, reached⟩ := run
    exact (valid.run consistent reached).partitions consistent fun edge => (attached edge).2

/-- A loop that is also entered from a vertex the root does not reach. -/
def sideEntered : Digraph Unit :=
  ofEdges 4 [(0, 2), (2, 3), (3, 2), (3, 4), (4, 1), (5, 3)]

theorem intervals_partition_sideEntered :
    sideEntered.intervals.map Interval.members = [[0], [2], [3, 4, 1]] ∧
      sideEntered.Partitions sideEntered.intervals ∧
      ¬ sideEntered.Reaches .forward root 5 := by
  have each : ∀ u < sideEntered.size, ∀ v ∈ sideEntered.successors u,
      sideEntered.isDetached u = false ∧ sideEntered.isDetached v = false := by
    decide +kernel
  have built : sideEntered.Built := built_ofEdges (by decide)
  obtain ⟨-, -, -, partitions⟩ :=
    intervals_partition built fun edge => each _ (lt_size_of_mem_neighbours edge) _ edge
  refine ⟨by decide +kernel, partitions, fun reaches => ?_⟩
  obtain ⟨interval, member, inside⟩ := (partitions.mem_iff 5).mpr reaches
  have outside : ∀ interval ∈ sideEntered.intervals, 5 ∉ interval.members := by
    decide +kernel
  exact outside interval member inside

end Digraph

end FlowRegions
