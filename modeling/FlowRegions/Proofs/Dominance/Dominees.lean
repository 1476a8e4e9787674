import FlowRegions.Proofs.Dominance.Correctness
import FlowRegions.Proofs.Digraph.Edgeless

/-!
Contract: the shape of a dominator tree, read off its arrays.

The children of a vertex are collected in one pass over the vertices behind the
start, in preorder.  What the pass leaves at a vertex are the vertices whose
immediate dominator it is, in the order of the pass, so that every vertex but the
start stands in one list.  Immediate dominators have smaller numbers, and going up
from one to the next ends at the start.

Owns:
- `DominatorTree.dominees_compute`: the children of a vertex as a part of the
  preorder sequence;
- `DominatorTree.Computed.iterate_up`: where going up ends;
- `DominatorTree.compute_shape`.
-/

namespace FlowRegions.DominatorTree

variable {α : Type} {graph : Digraph α} {direction : Direction}

/-! ## Collecting children -/

theorem childrenOf_concat (size : Nat) (idom : Array (Option Nat)) (below : List Nat) (w : Nat) :
    childrenOf size idom (below ++ [w]) =
      match (idom[w]?).join with
      | some dominator => (childrenOf size idom below).modify dominator (· ++ [w])
      | none => childrenOf size idom below := by
  rw [childrenOf, List.foldl_append]
  rfl

theorem size_childrenOf (size : Nat) (idom : Array (Option Nat)) (below : List Nat) :
    (childrenOf size idom below).size = size := by
  induction below using List.reverseRecOn with
  | nil => exact Array.size_replicate
  | append_singleton below w inductionHypothesis =>
      rw [childrenOf_concat]
      split
      · rw [Array.size_modify, inductionHypothesis]
      · exact inductionHypothesis

/-- The pass leaves at a vertex those that name it, in order. -/
theorem getD_childrenOf {size v : Nat} (within : v < size) (idom : Array (Option Nat))
    (below : List Nat) : (childrenOf size idom below).getD v [] =
      below.filter fun w => (idom[w]?).join = some v := by
  induction below using List.reverseRecOn with
  | nil => simp [childrenOf, Array.getD, within]
  | append_singleton below w inductionHypothesis =>
      have inBounds : v < (childrenOf size idom below).size := by rwa [size_childrenOf]
      rw [childrenOf_concat, List.filter_append, ← inductionHypothesis]
      cases named : (idom[w]?).join with
      | none => simp [named]
      | some dominator =>
          dsimp only
          rw [Array.getD_eq_getD_getElem?, Array.getElem?_modify, Array.getD_eq_getD_getElem?]
          by_cases same : dominator = v
          · simp [named, same, Array.getElem?_eq_getElem inBounds]
          · simp [named, same]

/-! ## The vertices behind the start -/

def Precedes (tree : DominatorTree) (a b : Nat) : Prop :=
  ∃ i j, tree.order? a = some i ∧ tree.order? b = some j ∧ i < j

theorem Precedes.ne {tree : DominatorTree} {a b : Nat} (precedes : tree.Precedes a b) : a ≠ b := by
  rintro rfl
  obtain ⟨i, j, first, second, before⟩ := precedes
  rw [first] at second
  exact absurd (Option.some.inj second) (Nat.ne_of_lt before)

/-- One step up the tree; the start, and what has no immediate dominator, stays. -/
def up (tree : DominatorTree) (v : Nat) : Nat :=
  (tree.idom? v).getD v

namespace Computed

variable {tree : DominatorTree} (computed : Computed graph tree)
include computed

theorem order?_eq_none_iff {v : Nat} : tree.order? v = none ↔
    ¬ graph.Reaches tree.direction (Digraph.start tree.direction) v := by
  rw [← computed.isReachable_iff, isReachable, Bool.not_eq_true, Option.isSome_eq_false_iff,
    Option.isNone_iff_eq_none]

theorem vertexAt_eq_start_iff {j : Nat} (within : j < tree.numbering.sequence.size) :
    tree.numbering.vertexAt j = Digraph.start tree.direction ↔ j = 0 := by
  rw [← computed.numbers.vertexAt_zero]
  exact ⟨computed.numbers.vertexAt_injective within computed.numbers.nonempty, congrArg _⟩

theorem mem_drop_one_sequence {w : Nat} : w ∈ tree.numbering.sequence.toList.drop 1 ↔
    graph.Reaches tree.direction (Digraph.start tree.direction) w ∧
      w ≠ Digraph.start tree.direction := by
  have nonempty := computed.numbers.nonempty
  rw [Numbering.Numbers.drop_one_sequence, List.mem_map]
  constructor
  · rintro ⟨i, isBelow, rfl⟩
    have within : i + 1 < tree.numbering.sequence.size := by
      have := List.mem_range.mp isBelow
      omega
    refine ⟨(computed.numbers.met_iff _).mp ?_, ?_⟩
    · rw [computed.numbers.order?_vertexAt within]
      rfl
    · rw [Ne, computed.vertexAt_eq_start_iff within]
      exact Nat.succ_ne_zero i
  · rintro ⟨reaches, notStart⟩
    obtain ⟨j, within, rfl⟩ := computed.exists_number reaches
    rw [Ne, computed.vertexAt_eq_start_iff within] at notStart
    obtain ⟨i, rfl⟩ := Nat.exists_eq_succ_of_ne_zero notStart
    exact ⟨i, List.mem_range.mpr (by omega), rfl⟩

/-- The sequence is in preorder. -/
theorem pairwise_drop_one_sequence :
    (tree.numbering.sequence.toList.drop 1).Pairwise tree.Precedes := by
  rw [Numbering.Numbers.drop_one_sequence, List.pairwise_map]
  refine List.pairwise_lt_range.imp_of_mem fun {i j} iBelow jBelow before => ?_
  rw [List.mem_range] at iBelow jBelow
  exact ⟨i + 1, j + 1, computed.numbers.order?_vertexAt (by omega),
    computed.numbers.order?_vertexAt (by omega), by omega⟩

/-! ## Immediate dominators -/

/-- The immediate dominator of a vertex has a smaller number. -/
theorem exists_idom?_precedes {w : Nat}
    (reaches : graph.Reaches tree.direction (Digraph.start tree.direction) w)
    (notStart : w ≠ Digraph.start tree.direction) :
    ∃ d, tree.idom? w = some d ∧ tree.Precedes d w := by
  obtain ⟨j, within, rfl⟩ := computed.exists_number reaches
  rw [Ne, computed.vertexAt_eq_start_iff within] at notStart
  obtain ⟨d, entry, immediate⟩ := computed.idom?_vertexAt (Nat.pos_of_ne_zero notStart) within
  have before := immediate.proper
  exact ⟨_, entry, d, j, computed.numbers.order?_vertexAt (by omega),
    computed.numbers.order?_vertexAt within, before⟩

/-- Immediate dominators are vertices. -/
theorem lt_size_of_idom? {w d : Nat} (entry : tree.idom? w = some d) : d < graph.size := by
  by_cases reaches : graph.Reaches tree.direction (Digraph.start tree.direction) w
  · by_cases isStart : w = Digraph.start tree.direction
    · rw [isStart, computed.idom?_start] at entry
      cases entry
      rw [← computed.numbers.vertexAt_zero]
      exact computed.numbers.vertexAt_lt computed.numbers.nonempty
    · obtain ⟨d', entry', _, _, numbered, _⟩ := computed.exists_idom?_precedes reaches isStart
      rw [entry] at entry'
      cases entry'
      exact computed.numbers.lt_size_of_order? numbered
  · rw [computed.idom?_unmet (computed.order?_eq_none_iff.mpr reaches)] at entry
    cases entry

/-- Going up ends at the start, after no more steps than the number of the vertex. -/
theorem iterate_up {w number : Nat} (numbered : tree.order? w = some number) {steps : Nat}
    (enough : number ≤ steps) : tree.up^[steps] w = Digraph.start tree.direction := by
  have startStays : tree.up (Digraph.start tree.direction) = Digraph.start tree.direction := by
    rw [up, computed.idom?_start]
    rfl
  induction steps generalizing w number with
  | zero =>
      obtain rfl := Nat.le_zero.mp enough
      obtain ⟨_, isFirst⟩ := computed.numbers.vertexAt_of_order? numbered
      rw [Function.iterate_zero, id, ← isFirst, computed.numbers.vertexAt_zero]
  | succ steps inductionHypothesis =>
      rw [Function.iterate_succ_apply]
      by_cases isStart : w = Digraph.start tree.direction
      · rw [isStart, startStays, Function.iterate_fixed startStays]
      · have reaches := (computed.numbers.met_iff w).mp (Option.isSome_of_eq_some numbered)
        obtain ⟨d, entry, i, j, upper, lower, before⟩ :=
          computed.exists_idom?_precedes reaches isStart
        rw [numbered] at lower
        cases lower
        rw [up, entry]
        exact inductionHypothesis upper (by omega)

end Computed

/-! ## Children -/

/-- The start is entered into the array only when the children are collected. -/
theorem exists_entries (graph : Digraph α) (direction : Direction) :
    ∃ entries, (compute graph direction).idom =
        entries.setIfInBounds (Digraph.start direction) (some (Digraph.start direction)) ∧
      (compute graph direction).children = childrenOf graph.size entries
        ((compute graph direction).numbering.sequence.toList.drop 1) :=
  ⟨_, rfl, rfl⟩

/-- The children of a vertex are those behind the start in preorder whose immediate
dominator it is. -/
theorem dominees_compute (consistent : graph.Consistent) (direction : Direction) (v : Nat) :
    (compute graph direction).dominees v =
      ((compute graph direction).numbering.sequence.toList.drop 1).filter fun w =>
        (compute graph direction).idom? w = some v := by
  have computed := computed_compute consistent direction
  obtain ⟨entries, isIdom, isChildren⟩ := exists_entries graph direction
  rw [dominees, isChildren]
  by_cases within : v < graph.size
  · rw [getD_childrenOf within]
    refine List.filter_congr fun w isBelow => ?_
    have notStart := (computed.mem_drop_one_sequence.mp isBelow).2
    rw [idom?, isIdom, Workspace.join_setIfInBounds, if_neg]
    exact fun both => notStart both.1.symm
  · rw [Array.getD, dif_neg (by rwa [size_childrenOf]), eq_comm, List.filter_eq_nil_iff]
    intro w _ entry
    exact within (computed.lt_size_of_idom? (of_decide_eq_true entry))

/-- The shape of the dominator tree of every graph that edits produce, in either direction.
Numbers are positions in preorder, and what is not reached has none.  Immediate dominators
have smaller numbers, so that going up from any vertex ends at the start.  The children of a
vertex are in preorder and have it as their immediate dominator, and the lists of all
vertices together hold every vertex that is reached, but the start, once. -/
theorem compute_shape (built : graph.Built) (direction : Direction) :
    (∀ v i, (compute graph direction).order? v = some i ↔
      ((Preorder.start graph direction (Digraph.start direction)).toList.map Prod.fst)[i]? =
        some v) ∧
    (∀ v, (compute graph direction).order? v = none ↔
      ¬ graph.Reaches direction (Digraph.start direction) v) ∧
    (∀ w, graph.Reaches direction (Digraph.start direction) w → w ≠ Digraph.start direction →
      ∃ d, (compute graph direction).idom? w = some d ∧
        (compute graph direction).Precedes d w) ∧
    (∀ w number steps, (compute graph direction).order? w = some number → number ≤ steps →
      (compute graph direction).up^[steps] w = Digraph.start direction) ∧
    (∀ v, ((compute graph direction).dominees v).Pairwise (compute graph direction).Precedes) ∧
    (∀ v, ∀ w ∈ (compute graph direction).dominees v,
      (compute graph direction).idom? w = some v) ∧
    (∀ v, graph.size ≤ v → (compute graph direction).dominees v = []) ∧
    ((List.range graph.size).flatMap (compute graph direction).dominees).Nodup ∧
    ∀ w, w ∈ (List.range graph.size).flatMap (compute graph direction).dominees ↔
      graph.Reaches direction (Digraph.start direction) w ∧ w ≠ Digraph.start direction := by
  have consistent := built.consistent
  have computed := computed_compute consistent direction
  have startWithin := Digraph.start_lt_size consistent direction
  have ordered (v : Nat) :
      ((compute graph direction).dominees v).Pairwise (compute graph direction).Precedes := by
    rw [dominees_compute consistent]
    exact computed.pairwise_drop_one_sequence.filter _
  have mem_dominees {v w : Nat} : w ∈ (compute graph direction).dominees v ↔
      (graph.Reaches direction (Digraph.start direction) w ∧ w ≠ Digraph.start direction) ∧
        (compute graph direction).idom? w = some v := by
    rw [dominees_compute consistent, List.mem_filter, decide_eq_true_iff]
    exact and_congr_left' computed.mem_drop_one_sequence
  refine ⟨fun v i => Numbering.order?_ofDigraph (consistent.contained direction) startWithin,
    fun v => computed.order?_eq_none_iff, fun w => computed.exists_idom?_precedes,
    fun w number steps numbered => computed.iterate_up numbered, ordered,
    fun v w member => (mem_dominees.mp member).2, fun v beyond => ?_, ?_, fun w => ?_⟩
  · rw [List.eq_nil_iff_forall_not_mem]
    intro w member
    have := computed.lt_size_of_idom? (mem_dominees.mp member).2
    omega
  · rw [List.nodup_flatMap]
    refine ⟨fun v _ => (ordered v).imp Precedes.ne, ?_⟩
    refine List.nodup_range.imp fun {u v} different w first second => different ?_
    have owner := (mem_dominees.mp first).2
    rw [(mem_dominees.mp second).2] at owner
    exact (Option.some.inj owner).symm
  · rw [List.mem_flatMap]
    constructor
    · rintro ⟨v, _, member⟩
      exact (mem_dominees.mp member).1
    · intro inside
      obtain ⟨d, entry, _⟩ := computed.exists_idom?_precedes inside.1 inside.2
      exact ⟨d, List.mem_range.mpr (computed.lt_size_of_idom? entry),
        mem_dominees.mpr ⟨inside, entry⟩⟩

/-- A path whose inner vertices can be stepped past, entered from a vertex that nothing
leads to. -/
def sidestepped : Digraph Unit :=
  Digraph.ofEdges 5 [(0, 2), (2, 3), (3, 4), (4, 5), (2, 4), (3, 5), (5, 1), (6, 5)]

/-- The last vertex has the immediate dominator of the one before it, which is not where the
path to it can be left. -/
theorem compute_shape_sidestepped :
    (compute sidestepped .forward).dominees 2 = [3, 4, 5] ∧
      ((compute sidestepped .forward).dominees 2).Pairwise
        (compute sidestepped .forward).Precedes ∧
      (compute sidestepped .forward).up^[4] 5 = Digraph.root ∧
      ¬ sidestepped.Reaches .forward Digraph.root 6 := by
  have built : sidestepped.Built := Digraph.built_ofEdges (by decide)
  obtain ⟨_, unmet_iff, _, upward, ordered, _⟩ := compute_shape built .forward
  exact ⟨by decide +kernel, ordered 2, upward 5 4 4 (by decide +kernel) (Nat.le_refl 4),
    (unmet_iff 6).mp (by decide +kernel)⟩

end FlowRegions.DominatorTree
