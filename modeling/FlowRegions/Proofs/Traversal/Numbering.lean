import FlowRegions.Proofs.Traversal.Preorder
import Mathlib.Data.List.Induction
import Mathlib.Data.List.Nodup

/-!
Contract: a numbering names the vertices reachable from the start of a
direction by their preorder numbers, and its parents form a depth-first tree on
these numbers.

Owns:
- `Numbering.Numbers`, what a numbering says about a graph;
- `Numbering.numbers_of_contained`, that the numbering of every graph says it
  that no edge leads out of, and so of every consistent graph;
- that numbers are positions and parents are reports of the preorder cursor.
-/

namespace FlowRegions.Numbering

variable {α : Type}

def parentNumber (numbering : Numbering) (i : Nat) : Nat :=
  (numbering.order? (numbering.parentOf (numbering.vertexAt i))).getD 0

def Edge (numbering : Numbering) (graph : Digraph α) (direction : Direction) (a b : Nat) : Prop :=
  a < numbering.sequence.size ∧ b < numbering.sequence.size ∧
    numbering.vertexAt b ∈ graph.neighbours direction (numbering.vertexAt a)

/-- The numbers of a numbering stand for what is reachable in a graph. -/
structure Numbers (numbering : Numbering) (graph : Digraph α) (direction : Direction) : Prop where
  order_size : numbering.order.size = graph.size
  nonempty : 0 < numbering.sequence.size
  vertexAt_zero : numbering.vertexAt 0 = Digraph.start direction
  order?_vertexAt : ∀ {i}, i < numbering.sequence.size →
    numbering.order? (numbering.vertexAt i) = some i
  vertexAt_of_order? : ∀ {v i}, numbering.order? v = some i →
    i < numbering.sequence.size ∧ numbering.vertexAt i = v
  vertexAt_parentNumber : ∀ {i}, i < numbering.sequence.size →
    numbering.vertexAt (numbering.parentNumber i) = numbering.parentOf (numbering.vertexAt i)
  met_iff : ∀ v, (numbering.order? v).isSome = true ↔
    graph.Reaches direction (Digraph.start direction) v
  tree : DepthFirst numbering.sequence.size numbering.parentNumber
    (numbering.Edge graph direction)

namespace Numbers

variable {numbering : Numbering} {graph : Digraph α} {direction : Direction}
variable (numbers : numbering.Numbers graph direction)
include numbers

theorem vertexAt_injective {i j : Nat} (iWithin : i < numbering.sequence.size)
    (jWithin : j < numbering.sequence.size)
    (same : numbering.vertexAt i = numbering.vertexAt j) : i = j := by
  have numbered := numbers.order?_vertexAt iWithin
  rw [same, numbers.order?_vertexAt jWithin] at numbered
  exact (Option.some.inj numbered).symm

theorem lt_size_of_order? {v i : Nat} (numbered : numbering.order? v = some i) :
    v < graph.size := by
  unfold order? at numbered
  by_contra beyond
  rw [← numbers.order_size] at beyond
  rw [Array.getElem?_eq_none (by omega)] at numbered
  cases numbered

theorem vertexAt_lt {i : Nat} (within : i < numbering.sequence.size) :
    numbering.vertexAt i < graph.size :=
  numbers.lt_size_of_order? (numbers.order?_vertexAt within)

/-- There are no more numbers than vertices. -/
theorem count_le : numbering.sequence.size ≤ graph.size := by
  have distinct : ((List.range numbering.sequence.size).map numbering.vertexAt).Nodup := by
    refine List.Nodup.map_on ?_ List.nodup_range
    intro i iBelow j jBelow same
    exact numbers.vertexAt_injective (List.mem_range.mp iBelow) (List.mem_range.mp jBelow) same
  have bound :
      ((List.range numbering.sequence.size).map numbering.vertexAt).length ≤ graph.size := by
    refine length_le_of_lt distinct ?_
    intro v member
    obtain ⟨i, below, rfl⟩ := List.mem_map.mp member
    exact numbers.vertexAt_lt (List.mem_range.mp below)
  rwa [List.length_map, List.length_range] at bound

omit numbers in
/-- The vertices behind the start, in preorder. -/
theorem drop_one_sequence (numbering : Numbering) :
    numbering.sequence.toList.drop 1 =
      (List.range (numbering.sequence.size - 1)).map fun i => numbering.vertexAt (i + 1) := by
  refine List.ext_getElem (by simp) ?_
  intro i low high
  simp only [List.length_map, List.length_range] at high
  have within : i + 1 < numbering.sequence.size := by omega
  simp [vertexAt, Array.getD, within]

end Numbers

/-! ## Numbering a list of visits -/

private structure Lists (size : Nat) (visits : List (Nat × Nat)) (numbering : Numbering) :
    Prop where
  sequence : numbering.sequence.toList = visits.map Prod.fst
  orderSize : numbering.order.size = size
  parentSize : numbering.parent.size = size
  order : ∀ v i, numbering.order? v = some i ↔ (visits.map Prod.fst)[i]? = some v
  parents : ∀ (i : Nat) (visit : Nat × Nat), visits[i]? = some visit →
    numbering.parentOf visit.1 = visit.2

private theorem lists_nil (size : Nat) : Lists size [] (ofVisits size []) where
  sequence := rfl
  orderSize := by simp [ofVisits]
  parentSize := by simp [ofVisits]
  order := by
    intro v i
    by_cases within : v < size <;> simp [ofVisits, order?, within]
  parents := by simp

/-- One more visit of a vertex not met before. -/
private theorem Lists.snoc {size : Nat} {visits : List (Nat × Nat)} {numbering : Numbering}
    (lists : Lists size visits numbering) {x p : Nat} (within : x < size)
    (fresh : x ∉ visits.map Prod.fst) :
    Lists size (visits ++ [(x, p)])
      { sequence := numbering.sequence.push x
        order := numbering.order.setIfInBounds x (some numbering.sequence.size)
        parent := numbering.parent.setIfInBounds x p } where
  sequence := by
    rw [Array.toList_push, lists.sequence, List.map_append]
    rfl
  orderSize := by rw [Array.size_setIfInBounds, lists.orderSize]
  parentSize := by rw [Array.size_setIfInBounds, lists.parentSize]
  order := by
    intro v i
    have sizeEq : numbering.sequence.size = (visits.map Prod.fst).length := by
      rw [← lists.sequence, Array.length_toList]
    have old := lists.order v i
    simp only [order?] at old ⊢
    rw [Array.getElem?_setIfInBounds, List.map_append, List.map_singleton,
      getElem?_concat_eq_some]
    by_cases same : x = v
    · subst same
      have notBefore : (visits.map Prod.fst)[i]? ≠ some x := fun found =>
        fresh (List.mem_of_getElem? found)
      simp only [if_true, lists.orderSize, within, Option.join_some, Option.some.injEq, sizeEq,
        notBefore, and_true, false_or, eq_comm]
    · simp only [same, and_false, or_false]
      exact old
  parents := by
    intro i visit found
    simp only [parentOf, Array.getD_eq_getD_getElem?, Array.getElem?_setIfInBounds]
    rcases getElem?_concat_eq_some.mp found with before | ⟨_, rfl⟩
    · have notSame : x ≠ visit.1 := by
        rintro rfl
        exact fresh (List.mem_map.mpr ⟨visit, List.mem_of_getElem? before, rfl⟩)
      have old := lists.parents i visit before
      rw [parentOf, Array.getD_eq_getD_getElem?] at old
      rw [if_neg notSame, old]
    · simp [lists.parentSize, within]

private theorem lists_ofVisits {size : Nat} {visits : List (Nat × Nat)}
    (distinct : (visits.map Prod.fst).Nodup)
    (within : ∀ v ∈ visits.map Prod.fst, v < size) :
    Lists size visits (ofVisits size visits) := by
  induction visits using List.reverseRecOn with
  | nil => exact lists_nil size
  | append_singleton visits visit inductionHypothesis =>
      rw [List.map_append, List.nodup_append] at distinct
      simp only [List.map_append, List.mem_append] at within
      have fresh : visit.1 ∉ visits.map Prod.fst := by
        intro member
        exact distinct.2.2 _ member visit.1 (by simp) rfl
      have before := inductionHypothesis distinct.1 fun v member => within v (.inl member)
      rw [ofVisits, List.foldl_append]
      exact before.snoc (within visit.1 (.inr (by simp))) fresh

namespace Lists

variable {size : Nat} {visits : List (Nat × Nat)} {numbering : Numbering}
  (lists : Lists size visits numbering)
include lists

private theorem count_eq : numbering.sequence.size = visits.length := by
  rw [← Array.length_toList, lists.sequence, List.length_map]

private theorem vertexAt_eq {i v : Nat} (found : (visits.map Prod.fst)[i]? = some v) :
    i < numbering.sequence.size ∧ numbering.vertexAt i = v := by
  have within := lt_length_of_getElem? found
  rw [List.length_map, ← lists.count_eq] at within
  refine ⟨within, ?_⟩
  rw [vertexAt, Array.getD_eq_getD_getElem?, ← Array.getElem?_toList, lists.sequence, found]
  rfl

private theorem getElem?_eq {i : Nat} (below : i < numbering.sequence.size) :
    (visits.map Prod.fst)[i]? = some (numbering.vertexAt i) := by
  have within : i < (visits.map Prod.fst).length := by rwa [List.length_map, ← lists.count_eq]
  rw [List.getElem?_eq_getElem within, (lists.vertexAt_eq (List.getElem?_eq_getElem within)).2]

/-- Edges between numbers are edges between positions. -/
private theorem edge_iff (graph : Digraph α) (direction : Direction) (a b : Nat) :
    numbering.Edge graph direction a b ↔ EdgeAt graph direction (visits.map Prod.fst) a b := by
  constructor
  · rintro ⟨aBelow, bBelow, edge⟩
    exact ⟨_, _, lists.getElem?_eq aBelow, lists.getElem?_eq bBelow, edge⟩
  · rintro ⟨u, v, atA, atB, edge⟩
    obtain ⟨aBelow, rfl⟩ := lists.vertexAt_eq atA
    obtain ⟨bBelow, rfl⟩ := lists.vertexAt_eq atB
    exact ⟨aBelow, bBelow, edge⟩

/-- The vertex recorded as a parent stands at the position of the parent. -/
private theorem parent_position {parent : Nat → Nat}
    (parents : ∀ i visit, visits[i]? = some visit →
      (visits.map Prod.fst)[parent i]? = some visit.2) {i : Nat}
    (below : i < numbering.sequence.size) :
    (visits.map Prod.fst)[parent i]? = some (numbering.parentOf (numbering.vertexAt i)) := by
  have found := lists.getElem?_eq below
  rw [List.getElem?_map, Option.map_eq_some_iff] at found
  obtain ⟨visit, atI, visited⟩ := found
  rw [← visited, lists.parents i visit atI]
  exact parents i visit atI

end Lists

/-! ## Numbering a graph -/

section Contained

variable {graph : Digraph α} {direction : Direction} (contained : graph.Contained direction)
  (startWithin : Digraph.start direction < graph.size)
include contained startWithin

private theorem lists_ofDigraph : Lists graph.size
    (Preorder.start graph direction (Digraph.start direction)).toList
    (ofDigraph graph direction) := by
  obtain ⟨_, complete⟩ := Preorder.exists_complete_toList contained startWithin
  exact lists_ofVisits complete.distinct fun v member =>
    contained.lt_size_of_reaches ((complete.met_iff v).mp member) startWithin

/-- The number of a vertex is its position among those that the cursor produces. -/
theorem order?_ofDigraph {v i : Nat} : (ofDigraph graph direction).order? v = some i ↔
    ((Preorder.start graph direction (Digraph.start direction)).toList.map Prod.fst)[i]? =
      some v :=
  (lists_ofDigraph contained startWithin).order v i

/-- The parent of a vertex is the one that the cursor reports with it. -/
theorem parentOf_ofDigraph {visit : Nat × Nat}
    (visited : visit ∈ (Preorder.start graph direction (Digraph.start direction)).toList) :
    (ofDigraph graph direction).parentOf visit.1 = visit.2 := by
  obtain ⟨i, atI⟩ := List.mem_iff_getElem?.mp visited
  exact (lists_ofDigraph contained startWithin).parents i visit atI

/-- The numbers of a graph that no edge leads out of stand for what is reachable. -/
theorem numbers_of_contained : (ofDigraph graph direction).Numbers graph direction := by
  obtain ⟨parent, complete⟩ := Preorder.exists_complete_toList contained startWithin
  have lists := lists_ofDigraph contained startWithin
  revert complete lists
  generalize (Preorder.start graph direction (Digraph.start direction)).toList = visits
  generalize ofDigraph graph direction = numbering
  intro complete lists
  have parentPosition {i : Nat} (below : i < numbering.sequence.size) :=
    lists.parent_position complete.parents below
  have parent_eq {i : Nat} (below : i < numbering.sequence.size) :
      numbering.parentNumber i = parent i := by
    rw [parentNumber, (lists.order _ _).mpr (parentPosition below)]
    rfl
  have edge_iff := lists.edge_iff graph direction
  have tree := complete.tree
  rw [← lists.count_eq] at tree
  have falls {b : Nat} (positive : 0 < b) (below : b < numbering.sequence.size) :
      parent b < b := tree.parent_lt positive below
  have first : (visits.map Prod.fst)[0]? = some (Digraph.start direction) := by
    rw [List.getElem?_map, complete.first]
    rfl
  refine
    { order_size := lists.orderSize
      nonempty := (lists.vertexAt_eq first).1
      vertexAt_zero := (lists.vertexAt_eq first).2
      order?_vertexAt := fun below => (lists.order _ _).mpr (lists.getElem?_eq below)
      vertexAt_of_order? := fun numbered => lists.vertexAt_eq ((lists.order _ _).mp numbered)
      vertexAt_parentNumber := fun below => by
        rw [parent_eq below]
        exact (lists.vertexAt_eq (parentPosition below)).2
      met_iff := ?_
      tree := ?_ }
  · intro v
    rw [← complete.met_iff, Option.isSome_iff_exists, List.mem_iff_getElem?]
    exact exists_congr fun i => lists.order v i
  · exact
      { edge_lt := fun step => ⟨step.1, step.2.1⟩
        parent_lt := fun positive below => by
          rw [parent_eq below]
          exact tree.parent_lt positive below
        parent_edge := fun positive below => by
          rw [parent_eq below, edge_iff]
          exact tree.parent_edge positive below
        parent_spine := fun below => by
          rw [parent_eq below]
          exact (tree.parent_spine below).congr falls parent_eq (Nat.lt_of_succ_lt below)
        forward := fun before step =>
          (tree.forward before ((edge_iff _ _).mp step)).congr falls parent_eq step.2.1 }

end Contained

/-- The numbers of a consistent graph stand for what is reachable. -/
theorem numbers_ofDigraph {graph : Digraph α} (consistent : graph.Consistent)
    (direction : Direction) : (ofDigraph graph direction).Numbers graph direction :=
  numbers_of_contained (consistent.contained direction)
    (Digraph.start_lt_size consistent direction)

end FlowRegions.Numbering
