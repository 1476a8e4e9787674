import FlowRegions.Structuring.RegionGraph
import FlowRegions.Proofs.Digraph.Walks
import FlowRegions.Proofs.Structuring.Table

/-!
Contract: what the queries of a region graph say about its edges, and the shape
that every region graph of a run has.

Owns:
- the reading of branches, exits, entrants and single entry as statements about
  edges;
- `RegionGraph.WellFormed`: the root leads to one live region, edges join live
  regions only, jumps are sinks with one predecessor, and the regions form a
  nested table;
- the equations of the walks that start at a region of a well-formed graph.
-/

namespace FlowRegions.RegionGraph

open FlowRegions.Digraph (root terminator)

variable {graph : RegionGraph} {p v d : Nat}

/-! ## Queries -/

theorem nodup_eraseDups (items : List Nat) : items.eraseDups.Nodup := by
  induction length : items.length using Nat.strongRecOn generalizing items with
  | ind n inductionHypothesis =>
      cases items with
      | nil => exact List.nodup_nil
      | cons x rest =>
          rw [List.eraseDups_cons, List.nodup_cons]
          refine ⟨by simp, inductionHypothesis _ ?_ _ rfl⟩
          have := List.length_filter_le (fun y => !y == x) rest
          rw [← length, List.length_cons]
          omega

theorem mem_branches : d ∈ graph.branches v ↔ d ∈ graph.successors v ∧ d ≠ terminator := by
  simp [branches]

theorem mem_exits : d ∈ graph.exits v ↔ d ∈ graph.successors v ∧ d ≠ terminator := by
  rw [exits, List.mem_eraseDups, mem_branches]

theorem nodup_exits (graph : RegionGraph) (v : Nat) : (graph.exits v).Nodup :=
  nodup_eraseDups _

theorem returns_iff : graph.returns v = true ↔ terminator ∈ graph.successors v := by
  simp [returns, Digraph.hasEdge]

theorem mem_entrants (consistent : graph.Consistent) :
    p ∈ graph.entrants v ↔ v ∈ graph.successors p := by
  rw [entrants, List.mem_eraseDups, consistent.mem_predecessors]

theorem nodup_entrants (graph : RegionGraph) (v : Nat) : (graph.entrants v).Nodup :=
  nodup_eraseDups _

/-- A list without repetition is a singleton when it has one member only. -/
theorem eq_singleton_iff {items : List Nat} (distinct : items.Nodup) {x : Nat} :
    items = [x] ↔ x ∈ items ∧ ∀ y ∈ items, y = x := by
  constructor
  · rintro rfl
    simp
  · rintro ⟨member, only⟩
    match items, distinct with
    | [], _ => cases member
    | [y], _ => rw [only y (by simp)]
    | y :: z :: rest, distinct =>
        have first := only y (by simp)
        have second := only z (by simp)
        simp [first, second] at distinct

theorem entersAlone_iff (consistent : graph.Consistent) :
    graph.entersAlone p v = true ↔
      v ∈ graph.successors p ∧ ∀ q, v ∈ graph.successors q → q = p := by
  rw [entersAlone, beq_iff_eq, eq_singleton_iff (nodup_entrants graph v)]
  simp only [mem_entrants consistent]

theorem exits_eq_nil_iff : graph.exits v = [] ↔ graph.branches v = [] := by
  rw [List.eq_nil_iff_forall_not_mem, List.eq_nil_iff_forall_not_mem]
  simp only [mem_exits, mem_branches]

theorem isJump_iff :
    graph.isJump v = true ↔ ∃ target cond, graph.table v = some ⟨.jump target, cond⟩ := by
  simp only [isJump, kind?, beq_iff_eq, Option.map_eq_some_iff]
  constructor
  · rintro ⟨⟨shape, cond⟩, found, isJump⟩
    cases shape with
    | jump target => exact ⟨target, cond, found⟩
    | _ => cases isJump
  · rintro ⟨target, cond, found⟩
    exact ⟨_, found, rfl⟩

theorem isJump_congr {other : RegionGraph} (same : other.table v = graph.table v) :
    other.isJump v = graph.isJump v := by
  rw [isJump, isJump, kind?, kind?, same]

/-! ## Well-formed graphs -/

/-- The shape of the region graphs of a run. -/
structure WellFormed (graph : RegionGraph) : Prop where
  consistent : graph.Consistent
  /-- The root leads to one live region, which is no jump. -/
  entry : ∃ e, graph.successors root = [e] ∧ graph.isLive e = true ∧ graph.isJump e = false
  /-- Edges lead from the root or a live region to the terminator or a live
  region. -/
  ends : ∀ {u v}, v ∈ graph.successors u →
    (u = root ∨ graph.isLive u = true) ∧ (v = terminator ∨ graph.isLive v = true)
  nested : graph.table.Nested
  /-- Jumps lead nowhere. -/
  jump_sink : ∀ {j}, graph.isJump j = true → graph.successors j = []
  /-- Jumps are entered from one place. -/
  jump_entrant : ∀ {j p q}, graph.isJump j = true → j ∈ graph.successors p →
    j ∈ graph.successors q → p = q

theorem table_isSome_iff (consistent : graph.Consistent) :
    (graph.table v).isSome = true ↔ 2 ≤ v ∧ v < graph.size :=
  consistent.payloads v

theorem lt_size_of_table {node : Node} (found : graph.table v = some node) : v < graph.size := by
  by_contra beyond
  have absent := (Digraph.vertex?_eq_none_iff graph v).mpr (by omega)
  simp [table, Digraph.payload?, absent] at found

namespace WellFormed

variable (wellFormed : graph.WellFormed)
include wellFormed

theorem root_not_live : graph.isLive root = false := by
  cases live : graph.isLive root with
  | false => rfl
  | true => exact absurd (wellFormed.consistent.two_le_of_isLive live) (by decide)

theorem terminator_not_live : graph.isLive terminator = false := by
  cases live : graph.isLive terminator with
  | false => rfl
  | true => exact absurd (wellFormed.consistent.two_le_of_isLive live) (by decide)

theorem ne_terminator_of_isLive (live : graph.isLive v = true) : v ≠ terminator := by
  rintro rfl
  rw [wellFormed.terminator_not_live] at live
  cases live

theorem ne_root_of_isLive (live : graph.isLive v = true) : v ≠ root := by
  rintro rfl
  rw [wellFormed.root_not_live] at live
  cases live

/-- No edge leaves the terminator. -/
theorem successors_terminator : graph.successors terminator = [] := by
  rw [List.eq_nil_iff_forall_not_mem]
  intro v member
  rcases (wellFormed.ends member).1 with isRoot | live
  · cases isRoot
  · rw [wellFormed.terminator_not_live] at live
    cases live

theorem isLive_of_mem_branches (member : d ∈ graph.branches v) : graph.isLive d = true := by
  obtain ⟨edge, notEnd⟩ := mem_branches.mp member
  exact (wellFormed.ends edge).2.resolve_left notEnd

theorem isLive_of_mem_exits (member : d ∈ graph.exits v) : graph.isLive d = true := by
  obtain ⟨edge, notEnd⟩ := mem_exits.mp member
  exact (wellFormed.ends edge).2.resolve_left notEnd

/-- A region with an edge is no jump. -/
theorem not_isJump_of_mem (member : d ∈ graph.successors v) : graph.isJump v = false := by
  cases isJump : graph.isJump v with
  | false => rfl
  | true =>
      rw [wellFormed.jump_sink isJump] at member
      cases member

theorem two_le_of_isJump (isJump : graph.isJump v = true) : 2 ≤ v := by
  obtain ⟨_, _, found⟩ := isJump_iff.mp isJump
  exact ((table_isSome_iff wellFormed.consistent).mp (by rw [found]; rfl)).1

theorem entry?_eq : ∃ e, graph.entry? = some e ∧ graph.successors root = [e] ∧
    graph.isLive e = true ∧ graph.isJump e = false := by
  obtain ⟨e, successors, live, notJump⟩ := wellFormed.entry
  exact ⟨e, by rw [ entry?, successors]; rfl, successors, live, notJump⟩

/-! ### Walks from a region -/

theorem branchingVertex?_unfold (within : v < graph.size) :
    graph.branchingVertex? v =
      NodeTable.branchingLevel.at? (graph.table v) graph.branchingVertex? :=
  NodeTable.walk_unfold _ NodeTable.branchingVertex?_succ wellFormed.nested within

theorem branchCond?_unfold (within : v < graph.size) :
    graph.branchCond? v = NodeTable.condLevel.at? (graph.table v) graph.branchCond? :=
  NodeTable.walk_unfold _ NodeTable.branchCond?_succ wellFormed.nested within

theorem firstVertex?_unfold (within : v < graph.size) :
    graph.firstVertex? v = NodeTable.firstLevel.at? (graph.table v) graph.firstVertex? :=
  NodeTable.walk_unfold _ NodeTable.firstVertex?_succ wellFormed.nested within

end WellFormed

end FlowRegions.RegionGraph
