import FlowRegions.Proofs.Digraph.Edgeless
import FlowRegions.Proofs.Structuring.Flow
import FlowRegions.Proofs.Traversal.Agreement
import Mathlib.Order.Bounds.Defs

/-!
Contract: the analysis of a region graph describes the depth-first tree that the
cursors report.

The preorder cursor reports every vertex with its parent.  Going from parent to parent
leads from a vertex up to the root along one line; the vertices of the line are those it
descends from.  The analysis does not follow lines: it compares the numbers of vertices
with the last number of a subtree.  The postorder cursor knows no parents, but it leaves a
vertex before the one it was entered from, and so before all of the line above.

Owns:
- `Lineage`, the line of reported parents above a vertex;
- `Digraph.Scan.sublist_left_of_visit` and `Digraph.sublist_left_of_lineage`: what is
  entered from a vertex is left before it;
- `Analysis.describes_lineages`.

Nothing is asked of a graph but that it has a root and that no edge leads out of it.
-/

namespace FlowRegions

open FlowRegions.Digraph (root terminator)

/-! ## Lines of reported parents -/

/-- The line from a vertex up to the start of a traversal, by the parents that the visits
report. -/
inductive Lineage (visits : List (Nat × Nat)) (start : Nat) : Nat → List Nat → Prop where
  | start : Lineage visits start start [start]
  | up {v parent : Nat} {line : List Nat} (visit : (v, parent) ∈ visits) (notStart : v ≠ start)
      (rest : Lineage visits start parent line) : Lineage visits start v (v :: line)

/-- There is one line above a vertex when no vertex is reported with two parents. -/
theorem Lineage.unique {visits : List (Nat × Nat)} {start v : Nat} {line other : List Nat}
    (single : ∀ {v p q}, (v, p) ∈ visits → (v, q) ∈ visits → p = q)
    (first : Lineage visits start v line) (second : Lineage visits start v other) :
    line = other := by
  induction first generalizing other with
  | start =>
      cases second with
      | start => rfl
      | up _ notStart _ => exact absurd rfl notStart
  | up visit notStart _ inductionHypothesis =>
      cases second with
      | start => exact absurd rfl notStart
      | up visit' _ rest =>
          cases single visit visit'
          rw [inductionHypothesis rest]

/-! ## Numbers along a line -/

namespace Numbering

variable {α : Type} {graph : Digraph α} {direction : Direction}
  (contained : graph.Contained direction) (startWithin : Digraph.start direction < graph.size)
include contained startWithin

/-- A numbered vertex is reported with the vertex that has the number of its parent. -/
theorem mem_visits {j : Nat} (within : j < (ofDigraph graph direction).sequence.size) :
    ((ofDigraph graph direction).vertexAt j,
        (ofDigraph graph direction).vertexAt ((ofDigraph graph direction).parentNumber j)) ∈
      (Preorder.start graph direction (Digraph.start direction)).toList := by
  have numbers := numbers_of_contained contained startWithin
  have atJ := (order?_ofDigraph contained startWithin).mp (numbers.order?_vertexAt within)
  obtain ⟨visit, visited, isVertex⟩ := List.mem_map.mp (List.mem_of_getElem? atJ)
  rw [numbers.vertexAt_parentNumber within, ← isVertex,
    parentOf_ofDigraph contained startWithin visited]
  exact visited

/-- Every number has a line above it, and its ancestors are on the line. -/
theorem exists_lineage {j : Nat} (within : j < (ofDigraph graph direction).sequence.size) :
    ∃ line, Lineage (Preorder.start graph direction (Digraph.start direction)).toList
        (Digraph.start direction) ((ofDigraph graph direction).vertexAt j) line ∧
      ∀ i, Ancestor (ofDigraph graph direction).parentNumber i j →
        (ofDigraph graph direction).vertexAt i ∈ line := by
  have numbers := numbers_of_contained contained startWithin
  induction j using Nat.strongRecOn with
  | ind j inductionHypothesis =>
      rcases Nat.eq_zero_or_pos j with rfl | positive
      · rw [numbers.vertexAt_zero]
        refine ⟨_, .start, fun i ancestor => ?_⟩
        have := numbers.tree.ancestor_le ancestor within
        obtain rfl : i = 0 := by omega
        rw [numbers.vertexAt_zero]
        exact List.mem_cons_self
      · have falls := numbers.tree.parent_lt positive within
        obtain ⟨line, lineage, holds⟩ := inductionHypothesis _ falls (by omega)
        refine ⟨_, .up (mem_visits contained startWithin within) ?_ lineage,
          fun i ancestor => ?_⟩
        · rw [← numbers.vertexAt_zero]
          intro same
          have := numbers.vertexAt_injective within numbers.nonempty same
          omega
        · by_cases same : i = j
          · exact same ▸ List.mem_cons_self
          · exact List.mem_cons_of_mem _ (holds i (ancestor.of_ne same).2)

/-- The vertices of a line are numbered by ancestors. -/
theorem ancestor_of_lineage {u v j : Nat} {line : List Nat}
    (lineage : Lineage (Preorder.start graph direction (Digraph.start direction)).toList
      (Digraph.start direction) v line)
    (numbered : (ofDigraph graph direction).order? v = some j) (above : u ∈ line) :
    ∃ i, (ofDigraph graph direction).order? u = some i ∧
      Ancestor (ofDigraph graph direction).parentNumber i j := by
  have numbers := numbers_of_contained contained startWithin
  induction lineage generalizing j with
  | start => exact ⟨j, List.mem_singleton.mp above ▸ numbered, .self j⟩
  | @up v parent line visit notStart rest inductionHypothesis =>
      rcases List.mem_cons.mp above with rfl | higher
      · exact ⟨j, numbered, .self j⟩
      · obtain ⟨within, rfl⟩ := numbers.vertexAt_of_order? numbered
        have positive : 0 < j := by
          rcases Nat.eq_zero_or_pos j with rfl | positive
          · exact absurd numbers.vertexAt_zero notStart
          · exact positive
        have falls := numbers.tree.parent_lt positive within
        have isParent : (ofDigraph graph direction).vertexAt
            ((ofDigraph graph direction).parentNumber j) = parent := by
          rw [numbers.vertexAt_parentNumber within]
          exact parentOf_ofDigraph contained startWithin visit
        obtain ⟨i, isNumber, ancestor⟩ := inductionHypothesis
          (isParent ▸ numbers.order?_vertexAt (by omega)) higher
        exact ⟨i, isNumber, .above positive ancestor⟩

end Numbering

/-! ## The order in which vertices are left -/

/-- In a list without repetition standing before is transitive. -/
theorem sublist_pair_trans {items : List Nat} (distinct : items.Nodup) {a b c : Nat}
    (first : [a, b].Sublist items) (second : [b, c].Sublist items) : [a, c].Sublist items := by
  induction items with
  | nil => cases first
  | cons x rest inductionHypothesis =>
      obtain ⟨fresh, restDistinct⟩ := List.nodup_cons.mp distinct
      cases second with
      | cons _ second =>
          cases first with
          | cons _ first => exact (inductionHypothesis restDistinct first second).cons x
          | cons_cons _ first => exact ((List.sublist_cons_self b [c]).trans second).cons_cons _
      | cons_cons _ second =>
          -- The middle one comes first, so that nothing stands before it.
          cases first with
          | cons _ first => exact absurd (first.subset (by simp)) fresh
          | cons_cons _ first => exact absurd (first.subset (by simp)) fresh

namespace Digraph

open SearchEvent

variable {α : Type} {graph : Digraph α} {direction : Direction}

/-- Below a vertex that is being explored, what is entered is left before the vertex it is
entered from. -/
theorem Scan.sublist_left_of_visit {visited final : Visited} {list : List Nat}
    {events : List SearchEvent} (scan : graph.Scan direction visited list events final)
    {parent : Nat} {path : List Nat} {visit : Nat × Nat}
    (member : visit ∈ visits (parent :: path) events) :
    [visit.1, visit.2].Sublist (events.filterMap left? ++ [parent]) := by
  induction scan generalizing parent path with
  | done => cases member
  | pass _ _ inductionHypothesis => exact inductionHypothesis member
  | @explore _ _ _ v _ below events _ inner _ innerHypothesis laterHypothesis =>
      have reports : (enter v :: (below ++ leave v :: events)).filterMap left? ++ [parent] =
          below.filterMap left? ++ [v] ++ (events.filterMap left? ++ [parent]) := by
        simp only [List.filterMap_cons, List.filterMap_append, left?, List.append_assoc,
          List.cons_append, List.nil_append]
      have entered : visits (parent :: path) (enter v :: (below ++ leave v :: events)) =
          (v, parent) ::
            (visits (v :: parent :: path) below ++ visits (parent :: path) events) := by
        rw [visits, visits_append, inner.openAfter_eq, visits, List.erase_cons_head]
        rfl
      rw [reports]
      rw [entered] at member
      rcases List.mem_cons.mp member with rfl | inside
      · have last : [parent].Sublist (events.filterMap left? ++ [parent]) :=
          List.sublist_append_right _ _
        exact (List.sublist_append_right (below.filterMap left?) [v]).append last
      rcases List.mem_append.mp inside with before | behind
      · exact (innerHypothesis before).trans (List.sublist_append_left _ _)
      · exact (laterHypothesis behind).trans (List.sublist_append_right _ _)

/-- What a search enters is left before the vertex it is entered from. -/
theorem sublist_left_of_visit {start : Nat} {visit : Nat × Nat}
    (member : visit ∈ visits [] (graph.search direction start)) (notStart : visit.1 ≠ start) :
    [visit.1, visit.2].Sublist ((graph.search direction start).filterMap left?) := by
  by_cases within : start < graph.size
  · obtain ⟨below, final, inner, events⟩ := exists_scan_search direction within
    have entered : visits [] (graph.search direction start) =
        (start, start) :: visits [start] below := by
      rw [events, visits, visits_append]
      simp [visits]
    have reports : (graph.search direction start).filterMap left? =
        below.filterMap left? ++ [start] := by
      simp only [events, List.filterMap_cons, List.filterMap_append, List.filterMap_nil, left?]
    rw [entered] at member
    rw [reports]
    rcases List.mem_cons.mp member with rfl | inside
    · exact absurd rfl notStart
    · exact inner.sublist_left_of_visit inside
  · rw [search, if_neg within] at member
    cases member

/-- A vertex is left before those of the line above it. -/
theorem sublist_left_of_lineage {start u v : Nat} {line : List Nat}
    (distinct : ((graph.search direction start).filterMap left?).Nodup)
    (lineage : Lineage (visits [] (graph.search direction start)) start v line)
    (above : u ∈ line) (different : u ≠ v) :
    [v, u].Sublist ((graph.search direction start).filterMap left?) := by
  induction lineage with
  | start => exact absurd (List.mem_singleton.mp above) different
  | @up v parent line visit notStart rest inductionHypothesis =>
      have first := sublist_left_of_visit visit notStart
      have higher := (List.mem_cons.mp above).resolve_left different
      by_cases isParent : u = parent
      · exact isParent ▸ first
      · exact sublist_pair_trans distinct first (inductionHypothesis higher isParent)

end Digraph

/-! ## The analysis -/

namespace Analysis

variable {graph : RegionGraph}

def reports (graph : RegionGraph) : List (Nat × Nat) :=
  (Preorder.start graph .forward root).toList

/-- The numbers in the depth-first subtree of a vertex: those of the vertices that have it on
the line above them. -/
def subtreeNumbers (graph : RegionGraph) (v : Nat) : Set Nat :=
  { number | ∃ w line, Lineage (reports graph) root w line ∧ v ∈ line ∧
    ((reports graph).map Prod.fst)[number]? = some w }

section Contained

variable (contained : graph.Contained .forward) (rooted : root < graph.size)
include contained rooted

theorem numbers_of_contained :
    (ofGraph graph).dominators.numbering.Numbers graph .forward :=
  Numbering.numbers_of_contained contained rooted

/-- A vertex descends from those of the line above it. -/
theorem descends_iff_lineage (u v : Nat) : (ofGraph graph).descends v u = true ↔
    graph.Reaches .forward root u ∧ graph.Reaches .forward root v ∧
      ∃ line, Lineage (reports graph) root v line ∧ u ∈ line := by
  have numbers := numbers_of_contained contained rooted
  constructor
  · intro descends
    obtain ⟨i, j, uNumbered, vNumbered⟩ := exists_order?_of_descends descends
    have ancestor := (descends_iff_ancestor numbers uNumbered vNumbered).mp descends
    refine ⟨(numbers.met_iff u).mp (Option.isSome_of_eq_some uNumbered),
      (numbers.met_iff v).mp (Option.isSome_of_eq_some vNumbered), ?_⟩
    obtain ⟨jWithin, rfl⟩ := numbers.vertexAt_of_order? vNumbered
    obtain ⟨_, rfl⟩ := numbers.vertexAt_of_order? uNumbered
    obtain ⟨line, lineage, holds⟩ := Numbering.exists_lineage contained rooted jWithin
    exact ⟨line, lineage, holds i ancestor⟩
  · rintro ⟨-, vReached, line, lineage, above⟩
    obtain ⟨j, vNumbered⟩ := Option.isSome_iff_exists.mp ((numbers.met_iff v).mpr vReached)
    obtain ⟨i, uNumbered, ancestor⟩ :=
      Numbering.ancestor_of_lineage contained rooted lineage vNumbered above
    exact (descends_iff_ancestor numbers uNumbered vNumbered).mpr ancestor

theorem existsUnique_lineage {v : Nat} (reaches : graph.Reaches .forward root v) :
    ∃! line, Lineage (reports graph) root v line := by
  have numbers := numbers_of_contained contained rooted
  obtain ⟨j, numbered⟩ := Option.isSome_iff_exists.mp ((numbers.met_iff v).mpr reaches)
  obtain ⟨within, rfl⟩ := numbers.vertexAt_of_order? numbered
  obtain ⟨line, lineage, -⟩ := Numbering.exists_lineage contained rooted within
  refine ⟨line, lineage, fun other isLineage => isLineage.unique (fun first second => ?_) lineage⟩
  exact (Numbering.parentOf_ofDigraph contained rooted first).symm.trans
    (Numbering.parentOf_ofDigraph contained rooted second)

theorem exists_last {v : Nat} (reaches : graph.Reaches .forward root v) :
    ∃ number, (ofGraph graph).last[v]? = some number ∧
      IsGreatest (subtreeNumbers graph v) number := by
  have numbers := numbers_of_contained contained rooted
  have raised := raised_subtreeEnds numbers
  obtain ⟨j, numbered⟩ := Option.isSome_iff_exists.mp ((numbers.met_iff v).mpr reaches)
  obtain ⟨within, rfl⟩ := numbers.vertexAt_of_order? numbered
  obtain ⟨lastWithin, below⟩ := raised.descendant within
  have inBounds := numbers.vertexAt_lt within
  rw [← numbers.order_size, ← raised.size_eq] at inBounds
  have found := Array.getElem?_eq_getElem inBounds
  rw [Array.getD_eq_getD_getElem?, found, Option.getD_some] at lastWithin below
  refine ⟨_, found, ?_, fun number inSubtree => ?_⟩
  · obtain ⟨line, lineage, holds⟩ := Numbering.exists_lineage contained rooted lastWithin
    exact ⟨_, line, lineage, holds j below, (Numbering.order?_ofDigraph contained rooted).mp
      (numbers.order?_vertexAt lastWithin)⟩
  · obtain ⟨w, line, lineage, above, position⟩ := inSubtree
    have isNumber := (Numbering.order?_ofDigraph contained rooted).mpr position
    obtain ⟨i, isNumber', ancestor⟩ :=
      Numbering.ancestor_of_lineage contained rooted lineage isNumber above
    cases Option.some.inj (isNumber'.symm.trans numbered)
    obtain ⟨numberWithin, -⟩ := numbers.vertexAt_of_order? isNumber
    have bounded := raised.le_last numbers (Nat.zero_le j) numberWithin ancestor
    rwa [Array.getD_eq_getD_getElem?, found, Option.getD_some] at bounded

end Contained

/-- The postorder of an analysis are the regions that the search leaves. -/
theorem postorder_eq (graph : RegionGraph) : (ofGraph graph).postorder =
    ((graph.search .forward root).filterMap SearchEvent.left?).filter fun v =>
      v != root && v != terminator := by
  rw [← Digraph.take_postorder_eq_left graph .forward root 0]
  rfl

theorem reports_eq (graph : RegionGraph) :
    reports graph = SearchEvent.visits [] (graph.search .forward root) :=
  Digraph.take_preorder_eq_visits graph .forward root 0

/-- The analysis describes the depth-first tree of every region graph that has a root and no
edge that leads out of it.  A vertex descends from another exactly when both are reached and
the other is on its line of reported parents up to the root, of which there is one; the last
number of a vertex is the greatest in its subtree; and the postorder holds every region that
is reached once, each behind all regions that descend from it. -/
theorem describes_lineages (contained : graph.Contained .forward) (rooted : root < graph.size) :
    (∀ u v, (ofGraph graph).descends v u = true ↔
      graph.Reaches .forward root u ∧ graph.Reaches .forward root v ∧
        ∃ line, Lineage (reports graph) root v line ∧ u ∈ line) ∧
    (∀ v, graph.Reaches .forward root v →
      (∃! line, Lineage (reports graph) root v line) ∧
      ∃ number, (ofGraph graph).last[v]? = some number ∧
        IsGreatest (subtreeNumbers graph v) number) ∧
    (∀ v, v ∈ (ofGraph graph).postorder ↔
      graph.Reaches .forward root v ∧ v ≠ root ∧ v ≠ terminator) ∧
    (ofGraph graph).postorder.Nodup ∧
    ∀ u ∈ (ofGraph graph).postorder, ∀ v ∈ (ofGraph graph).postorder, u ≠ v →
      ∀ line, Lineage (reports graph) root v line → u ∈ line →
        [v, u].Sublist (ofGraph graph).postorder := by
  obtain ⟨entered, reached⟩ := contained.entered_search root
  have reordered := Digraph.left_perm_entered_search graph .forward root
  have distinct := reordered.nodup_iff.mpr entered
  have mem_postorder {v : Nat} : v ∈ (ofGraph graph).postorder ↔
      graph.Reaches .forward root v ∧ v ≠ root ∧ v ≠ terminator := by
    rw [postorder_eq, List.mem_filter, reordered.mem_iff, reached, and_iff_right rooted,
      Bool.and_eq_true, bne_iff_ne, bne_iff_ne]
  refine ⟨descends_iff_lineage contained rooted, fun v reaches =>
    ⟨existsUnique_lineage contained rooted reaches, exists_last contained rooted reaches⟩,
    fun v => mem_postorder, ?_, fun u isU v isV different line lineage above => ?_⟩
  · rw [postorder_eq]
    exact distinct.filter _
  · rw [reports_eq] at lineage
    have before := (Digraph.sublist_left_of_lineage distinct lineage above different).filter
      fun v => v != root && v != terminator
    rw [← postorder_eq] at before
    obtain ⟨-, uProper⟩ := mem_postorder.mp isU
    obtain ⟨-, vProper⟩ := mem_postorder.mp isV
    simpa [uProper, vProper] using before

/-- A loop that comes together again behind a branch with a repeated edge, entered from a
region that nothing leads to. -/
def rejoined : RegionGraph :=
  [(0, 2), (2, 3), (2, 4), (2, 4), (3, 3), (3, 5), (4, 5), (5, 2), (5, 1), (6, 5)].foldl
    (fun graph edge => graph.addEdge edge.1 edge.2)
    (Digraph.edgeless ((List.range 5).map fun i => { shape := .leaf (i + 2) }))

/-- The last region of the loop descends from the branch that is taken first, and not from
the other, though an edge leads to it from there. -/
theorem describes_lineages_rejoined :
    Digraph.Contained rejoined .forward ∧ root < Digraph.size rejoined ∧
      (ofGraph rejoined).postorder = [5, 3, 4, 2] ∧ [5, 3].Sublist (ofGraph rejoined).postorder ∧
      IsGreatest (subtreeNumbers rejoined 3) 4 ∧
      ¬ ∃ line, Lineage (reports rejoined) root 5 line ∧ 4 ∈ line := by
  have contained : Digraph.Contained rejoined .forward := by decide +kernel
  have rooted : root < Digraph.size rejoined := by decide +kernel
  obtain ⟨descends_iff, numbered, _, _, ordered⟩ := describes_lineages contained rooted
  have postorder : (ofGraph rejoined).postorder = [5, 3, 4, 2] := by decide +kernel
  obtain ⟨threeReached, fiveReached, line, lineage, above⟩ :=
    (descends_iff 3 5).mp (by decide +kernel)
  have fourReached := ((descends_iff 4 4).mp (by decide +kernel)).1
  refine ⟨contained, rooted, postorder, ?_, ?_, fun onLine => ?_⟩
  · exact ordered 3 (by simp [postorder]) 5 (by simp [postorder]) (by decide) line lineage above
  · obtain ⟨-, number, isLast, greatest⟩ := numbered 3 threeReached
    have isFour : (ofGraph rejoined).last[3]? = some 4 := by decide +kernel
    cases Option.some.inj (isLast.symm.trans isFour)
    exact greatest
  · have descends := (descends_iff 4 5).mpr ⟨fourReached, fiveReached, onLine⟩
    have apart : (ofGraph rejoined).descends 5 4 = false := by decide +kernel
    rw [apart] at descends
    cases descends

end Analysis

end FlowRegions
