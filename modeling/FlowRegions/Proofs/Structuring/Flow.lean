import FlowRegions.Structuring.Analysis
import FlowRegions.Proofs.Dominance.Correctness
import FlowRegions.Proofs.Structuring.Regions
import FlowRegions.Proofs.Traversal.Postorder

/-!
Contract: what the analysis of a region graph says about walks in it.

Owns:
- `Analysis.Raised`, the invariant of the pass that finds the last number of
  each depth-first subtree, and the reading of descent as ancestry;
- the reading of postorder, dominance and immediate dominators as statements
  about walks from the root;
- `Analysis.exists_entrant`: every region but the root is entered from a place
  that the root reaches without passing the region.
-/

namespace FlowRegions.Analysis

open FlowRegions.Digraph (root terminator)

/-! ## Subtree ends -/

section SubtreeEnds

variable {α : Type} {graph : Digraph α} {direction : Direction} {numbering : Numbering}

/-- The last numbers when every vertex numbered above `bound` has raised that
of its parent: each is the number of a descendant, and none is below the
descendants met through a child above the bound. -/
structure Raised (numbering : Numbering) (bound : Nat) (last : Array Nat) : Prop where
  size_eq : last.size = numbering.order.size
  descendant : ∀ {j}, j < numbering.sequence.size →
    last.getD (numbering.vertexAt j) 0 < numbering.sequence.size ∧
      Ancestor numbering.parentNumber j (last.getD (numbering.vertexAt j) 0)
  covers : ∀ {child d}, bound < child → child < numbering.sequence.size →
    d < numbering.sequence.size → Ancestor numbering.parentNumber child d →
    d ≤ last.getD (numbering.vertexAt (numbering.parentNumber child)) 0

theorem raised_start (numbers : numbering.Numbers graph direction) :
    Raised numbering (numbering.sequence.size - 1)
      (numbering.order.map fun number => number.getD 0) where
  size_eq := Array.size_map
  descendant := by
    intro j within
    have number : (numbering.order.map fun number => number.getD 0).getD
        (numbering.vertexAt j) 0 = j := by
      have numbered := numbers.order?_vertexAt within
      rw [Numbering.order?, Option.join_eq_some_iff] at numbered
      rw [Array.getD_eq_getD_getElem?, Array.getElem?_map, numbered]
      rfl
    rw [number]
    exact ⟨within, .self j⟩
  covers := by
    intro child d above within
    omega

/-- Once its children have raised it, the last number of a vertex is the
greatest in its subtree. -/
theorem Raised.le_last {bound : Nat} {last : Array Nat}
    (raised : Raised numbering bound last) (numbers : numbering.Numbers graph direction)
    {j d : Nat} (low : bound ≤ j) (dWithin : d < numbering.sequence.size)
    (ancestor : Ancestor numbering.parentNumber j d) :
    d ≤ last.getD (numbering.vertexAt j) 0 := by
  have jWithin : j < numbering.sequence.size := by
    have := numbers.tree.ancestor_le ancestor dWithin
    omega
  obtain ⟨endWithin, endBelow⟩ := raised.descendant jWithin
  by_cases self : j = d
  · exact self ▸ numbers.tree.ancestor_le endBelow endWithin
  · obtain ⟨child, positive, rfl, down⟩ := DepthFirst.exists_child ancestor self
    have childLe := numbers.tree.ancestor_le down dWithin
    have falls := numbers.tree.parent_lt positive (by omega)
    exact raised.covers (by omega) (by omega) dWithin down

/-- A child raises the last number of its parent and no other. -/
theorem getD_raiseParent (numbers : numbering.Numbers graph direction) {last : Array Nat}
    (sizeEq : last.size = numbering.order.size) {child j : Nat} (positive : 0 < child)
    (within : child < numbering.sequence.size) (jWithin : j < numbering.sequence.size) :
    (raiseParent numbering last (numbering.vertexAt child)).getD (numbering.vertexAt j) 0 =
      if j = numbering.parentNumber child then
        max (last.getD (numbering.vertexAt j) 0) (last.getD (numbering.vertexAt child) 0)
      else last.getD (numbering.vertexAt j) 0 := by
  have parentWithin : numbering.parentNumber child < numbering.sequence.size :=
    Nat.lt_trans (numbers.tree.parent_lt positive within) within
  unfold raiseParent
  dsimp only
  rw [← numbers.vertexAt_parentNumber within, Array.getD_eq_getD_getElem?,
    Array.getElem?_setIfInBounds, sizeEq, numbers.order_size]
  by_cases same : j = numbering.parentNumber child
  · rw [same, if_pos rfl, if_pos (numbers.vertexAt_lt parentWithin), if_pos rfl]
    rfl
  · have different : numbering.vertexAt (numbering.parentNumber child) ≠ numbering.vertexAt j :=
      fun equal => same (numbers.vertexAt_injective parentWithin jWithin equal).symm
    rw [if_neg different, if_neg same, Array.getD_eq_getD_getElem?]

theorem Raised.raiseParent (numbers : numbering.Numbers graph direction) {k : Nat}
    {last : Array Nat} (raised : Raised numbering (k + 1) last)
    (within : k + 1 < numbering.sequence.size) :
    Raised numbering k (raiseParent numbering last (numbering.vertexAt (k + 1))) := by
  have changed {j : Nat} (jWithin : j < numbering.sequence.size) :=
    getD_raiseParent numbers raised.size_eq (Nat.succ_pos k) within jWithin
  refine
    { size_eq := ?_
      descendant := ?_
      covers := ?_ }
  · rw [← raised.size_eq, Analysis.raiseParent, Array.size_setIfInBounds]
  · intro j jWithin
    rw [changed jWithin]
    split
    · rename_i isParent
      obtain ⟨ownWithin, own⟩ := raised.descendant jWithin
      obtain ⟨childWithin, child⟩ := raised.descendant within
      have below : Ancestor numbering.parentNumber j
          (last.getD (numbering.vertexAt (k + 1)) 0) :=
        Ancestor.trans (.above (Nat.succ_pos k) (isParent ▸ .self _)) child
      rcases Nat.le_total (last.getD (numbering.vertexAt j) 0)
        (last.getD (numbering.vertexAt (k + 1)) 0) with le | le
      · rw [Nat.max_eq_right le]
        exact ⟨childWithin, below⟩
      · rw [Nat.max_eq_left le]
        exact ⟨ownWithin, own⟩
    · exact raised.descendant jWithin
  · intro child d above childWithin dWithin down
    have positive : 0 < child := by omega
    have childFalls := numbers.tree.parent_lt positive childWithin
    rw [changed (Nat.lt_trans childFalls childWithin)]
    by_cases isNext : child = k + 1
    · subst isNext
      rw [if_pos rfl]
      exact Nat.le_trans (raised.le_last numbers (Nat.le_refl _) dWithin down)
        (Nat.le_max_right _ _)
    · have old := raised.covers (by omega) childWithin dWithin down
      split
      · exact Nat.le_trans old (Nat.le_max_left _ _)
      · exact old

theorem raised_foldl (numbers : numbering.Numbers graph direction) (k : Nat)
    (within : k < numbering.sequence.size) {last : Array Nat}
    (raised : Raised numbering k last) :
    Raised numbering 0
      (((List.range k).map fun i => numbering.vertexAt (i + 1)).reverse.foldl
        (raiseParent numbering) last) := by
  induction k generalizing last with
  | zero => exact raised
  | succ k inductionHypothesis =>
      rw [List.range_succ, List.map_append, List.reverse_append, List.foldl_append]
      exact inductionHypothesis (by omega) (raised.raiseParent numbers within)

theorem raised_subtreeEnds (numbers : numbering.Numbers graph direction) :
    Raised numbering 0 (subtreeEnds numbering) := by
  have nonempty := numbers.nonempty
  unfold subtreeEnds
  rw [Numbering.Numbers.drop_one_sequence]
  exact raised_foldl numbers _ (by omega) (raised_start numbers)

/-- The numbers of a subtree are those from its root to its last. -/
theorem ancestor_iff_le_last (numbers : numbering.Numbers graph direction) {i j : Nat}
    (iWithin : i < numbering.sequence.size) (jWithin : j < numbering.sequence.size) :
    Ancestor numbering.parentNumber i j ↔
      i ≤ j ∧ j ≤ (subtreeEnds numbering).getD (numbering.vertexAt i) 0 := by
  have raised := raised_subtreeEnds numbers
  constructor
  · intro ancestor
    exact ⟨numbers.tree.ancestor_le ancestor jWithin,
      raised.le_last numbers (Nat.zero_le i) jWithin ancestor⟩
  · rintro ⟨low, high⟩
    obtain ⟨endWithin, endBelow⟩ := raised.descendant iWithin
    exact numbers.tree.ancestor_between endBelow endWithin low high

end SubtreeEnds

section Descent

variable {graph : RegionGraph} {u v : Nat}

/-- What descends is numbered, as is what it descends from. -/
theorem exists_order?_of_descends (descends : (ofGraph graph).descends v u = true) :
    ∃ i j, (ofGraph graph).dominators.order? u = some i ∧
      (ofGraph graph).dominators.order? v = some j := by
  unfold Analysis.descends at descends
  split at descends
  · rename_i first number uNumbered vNumbered
    exact ⟨first, number, uNumbered, vNumbered⟩
  · cases descends

/-- Descent is ancestry of the numbers. -/
theorem descends_iff_ancestor
    (numbers : (ofGraph graph).dominators.numbering.Numbers graph .forward) {i j : Nat}
    (uNumbered : (ofGraph graph).dominators.order? u = some i)
    (vNumbered : (ofGraph graph).dominators.order? v = some j) :
    (ofGraph graph).descends v u = true ↔
      Ancestor (ofGraph graph).dominators.numbering.parentNumber i j := by
  rw [descends, uNumbered, vNumbered]
  obtain ⟨iWithin, rfl⟩ := numbers.vertexAt_of_order? uNumbered
  obtain ⟨jWithin, rfl⟩ := numbers.vertexAt_of_order? vNumbered
  dsimp only
  rw [Bool.and_eq_true, decide_eq_true_eq, decide_eq_true_eq,
    ancestor_iff_le_last numbers iWithin jWithin]
  rfl

end Descent

/-! ## Walks -/

section Walks

variable {graph : RegionGraph} (consistent : graph.Consistent) {u v : Nat}
include consistent

theorem computed : DominatorTree.Computed graph (ofGraph graph).dominators :=
  DominatorTree.computed_compute consistent .forward

theorem numbers : (ofGraph graph).dominators.numbering.Numbers graph .forward :=
  (computed consistent).numbers

/-- What is tried is what the root reaches. -/
theorem mem_postorder : v ∈ (ofGraph graph).postorder ↔
    graph.Reaches .forward root v ∧ v ≠ root ∧ v ≠ terminator := by
  have within : root < graph.size := Digraph.start_lt_size consistent .forward
  have visits : v ∈ (Postorder.start graph .forward root).toList ↔ _ :=
    Postorder.mem_toList_iff consistent within v
  unfold ofGraph
  dsimp only
  rw [List.mem_filter, visits, Bool.and_eq_true, bne_iff_ne, bne_iff_ne]

theorem isReachable_iff :
    (ofGraph graph).dominators.isReachable v = true ↔ graph.Reaches .forward root v :=
  (computed consistent).isReachable_iff v

theorem dominates_iff : (ofGraph graph).dominates u v = true ↔
    graph.Reaches .forward root u ∧ graph.Reaches .forward root v ∧
      graph.Dominates .forward u v :=
  (computed consistent).dominates_iff u v

theorem exists_number (reaches : graph.Reaches .forward root v) :
    ∃ j, j < (ofGraph graph).dominators.numbering.sequence.size ∧
      (ofGraph graph).dominators.numbering.vertexAt j = v :=
  (computed consistent).exists_number reaches

theorem order_vertexAt {j : Nat}
    (within : j < (ofGraph graph).dominators.numbering.sequence.size) :
    (ofGraph graph).order ((ofGraph graph).dominators.numbering.vertexAt j) = j := by
  rw [order, DominatorTree.order?, (numbers consistent).order?_vertexAt within]
  rfl

theorem descends_vertexAt {i j : Nat}
    (iWithin : i < (ofGraph graph).dominators.numbering.sequence.size)
    (jWithin : j < (ofGraph graph).dominators.numbering.sequence.size) :
    (ofGraph graph).descends ((ofGraph graph).dominators.numbering.vertexAt j)
        ((ofGraph graph).dominators.numbering.vertexAt i) = true ↔
      Ancestor (ofGraph graph).dominators.numbering.parentNumber i j :=
  descends_iff_ancestor (numbers consistent) ((numbers consistent).order?_vertexAt iWithin)
    ((numbers consistent).order?_vertexAt jWithin)

/-- What descends from a region is reached from it without coming back. -/
theorem walk_of_descends (descends : (ofGraph graph).descends v u = true) :
    graph.Reaches .forward root u ∧ graph.Reaches .forward root v ∧
      Relation.ReflTransGen (graph.EdgePast .forward u) u v := by
  have reached {w number : Nat} (numbered : (ofGraph graph).dominators.order? w = some number) :
      graph.Reaches .forward root w :=
    (isReachable_iff consistent).mp (by rw [DominatorTree.isReachable, numbered]; rfl)
  have both : graph.Reaches .forward root u ∧ graph.Reaches .forward root v := by
    obtain ⟨first, number, uNumbered, vNumbered⟩ := exists_order?_of_descends descends
    exact ⟨reached uNumbered, reached vNumbered⟩
  refine ⟨both.1, both.2, ?_⟩
  obtain ⟨i, iWithin, rfl⟩ := exists_number consistent both.1
  obtain ⟨j, jWithin, rfl⟩ := exists_number consistent both.2
  have ancestor := (descends_vertexAt consistent iWithin jWithin).mp descends
  have down := (numbers consistent).tree.walk_down ancestor jWithin
  refine down.lift _ fun a b step => ⟨step.1.2.2, fun same => ?_⟩
  have := (numbers consistent).vertexAt_injective step.1.2.1 iWithin same
  omega

/-- Every reached region but the root is entered from its parent in the
depth-first tree, which is numbered before it and reached without passing
it. -/
theorem exists_entrant (reaches : graph.Reaches .forward root v) (notRoot : v ≠ root) :
    ∃ p, v ∈ graph.successors p ∧
      Relation.ReflTransGen (graph.EdgePast .forward v) root p ∧
      (ofGraph graph).descends p v = false ∧
      (ofGraph graph).order p < (ofGraph graph).order v := by
  obtain ⟨j, within, rfl⟩ := exists_number consistent reaches
  have start : (ofGraph graph).dominators.numbering.vertexAt 0 = root :=
    (numbers consistent).vertexAt_zero
  have positive : 0 < j := by
    rcases Nat.eq_zero_or_pos j with rfl | positive
    · exact absurd start notRoot
    · exact positive
  have tree := (numbers consistent).tree
  have falls := tree.parent_lt positive within
  have pWithin : (ofGraph graph).dominators.numbering.parentNumber j <
      (ofGraph graph).dominators.numbering.sequence.size := by omega
  refine ⟨_, (tree.parent_edge positive within).2.2, ?_, ?_, ?_⟩
  · have down := tree.walk_down (tree.zero_ancestor pWithin) pWithin
    rw [← start]
    refine down.lift _ fun a b step => ⟨step.1.2.2, fun same => ?_⟩
    have := (numbers consistent).vertexAt_injective step.1.2.1 within same
    have := tree.ancestor_le step.2.2 pWithin
    omega
  · cases down : (ofGraph graph).descends _ _ with
    | false => rfl
    | true =>
        have := tree.ancestor_le ((descends_vertexAt consistent within pWithin).mp down) pWithin
        omega
  · rw [order_vertexAt consistent within, order_vertexAt consistent pWithin]
    exact falls

/-- The root is the immediate dominator of what it leads to. -/
theorem idom?_of_root_edge (edge : v ∈ graph.successors root) (notRoot : v ≠ root) :
    (ofGraph graph).dominators.idom? v = some root := by
  have reaches : graph.Reaches .forward root v := (Digraph.Reaches.refl root).edge edge
  obtain ⟨d, found, different, dominates, _⟩ :=
    (computed consistent).immediatelyDominates reaches notRoot
  have member := dominates [root, v] (.step edge (.stay v))
  rw [found]
  rcases List.mem_cons.mp member with isRoot | last
  · rw [isRoot]
  · exact absurd (List.mem_singleton.mp last) different

end Walks

end FlowRegions.Analysis
