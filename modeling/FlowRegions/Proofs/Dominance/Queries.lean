import FlowRegions.Proofs.Dominance.Correctness
import FlowRegions.Proofs.Digraph.Edgeless

/-!
Contract: what a dominator tree answers when it is asked by arbitrary integers.

A query is about an integer, which names a vertex or none.  Dominance between
integers is a climb up a list of entries, which the tree shares with callers
that bring a list of their own.

Owns:
- `climbsTo_map` and `entryIn_entries`, by which the climb from an integer is the
  climb from the vertex it names;
- `compute_correct`, which mentions neither numbers nor semidominators nor
  workspaces.
-/

namespace FlowRegions.DominatorTree

variable {α : Type} {graph : Digraph α} {direction : Direction}

/-! ## Climbs from integers -/

/-- A climb may be renamed. -/
theorem climbsTo_map {ν μ : Type} [DecidableEq ν] [DecidableEq μ] {name : ν → μ}
    (injective : Function.Injective name) {up : ν → Option ν} {up' : μ → Option μ}
    (same : ∀ v, up' (name v) = (up v).map name) (goal : ν) (fuel : Nat) (here : ν) :
    climbsTo up' (name goal) fuel (name here) = climbsTo up goal fuel here := by
  induction fuel generalizing here with
  | zero => simp only [climbsTo, injective.eq_iff]
  | succ fuel inductionHypothesis =>
      rw [climbsTo, climbsTo, same]
      cases up here with
      | none => simp only [Option.map_none, injective.eq_iff]
      | some next =>
          simp only [Option.map_some, injective.eq_iff, ne_eq, injective.ne_iff,
            inductionHypothesis]

section Tree

variable (tree : DominatorTree)

/-- The list holds for an integer what the tree answers about it. -/
theorem entryIn_entries (name : Int) :
    entryIn tree.entries name = (tree.idomAt? name).map Int.ofNat := by
  cases name with
  | negSucc k => rfl
  | ofNat v =>
      change (tree.entries[v]?).join = (tree.idom[v]?).join.map Int.ofNat
      rw [entries, Array.getElem?_map]
      cases tree.idom[v]? with
      | none => rfl
      | some entry => rfl

theorem size_entries : tree.entries.size = tree.idom.size :=
  Array.size_map

/-- Asked about two vertices, the tree answers as it does by their names. -/
theorem dominatesAt_natCast (n m : Nat) : tree.dominatesAt n m = tree.dominates n m := by
  have climbs : climbsTo (entryIn tree.entries) (n : Int) (tree.idom.size + 1) (m : Int) =
      climbsTo tree.idom? n (tree.idom.size + 1) m :=
    climbsTo_map (fun _ _ => Int.ofNat.inj) (fun v => entryIn_entries tree v) n _ m
  rw [dominatesAt, dominatesIn, size_entries, climbs]
  rfl

variable {tree}

theorem exists_of_isReachableAt {name : Int} (isReachable : tree.isReachableAt name = true) :
    ∃ v : Nat, name = v ∧ tree.isReachable v = true := by
  cases name with
  | negSucc k => cases isReachable
  | ofNat v => exact ⟨v, rfl, isReachable⟩

/-- Only vertices that are reachable have an entry. -/
theorem exists_of_entryIn {here next : Int} (entry : entryIn tree.entries here = some next) :
    ∃ u v : Nat, here = u ∧ next = v ∧ tree.idom? u = some v := by
  rw [entryIn_entries, Option.map_eq_some_iff] at entry
  obtain ⟨v, isEntry, rfl⟩ := entry
  cases here with
  | negSucc k => cases isEntry
  | ofNat u => exact ⟨u, v, rfl, rfl, isEntry⟩

end Tree

namespace Computed

variable {tree : DominatorTree} (computed : Computed graph tree)
include computed

theorem lt_size_of_isReachable {v : Nat} (isReachable : tree.isReachable v = true) :
    v < graph.size := by
  obtain ⟨j, numbered⟩ := Option.isSome_iff_exists.mp isReachable
  obtain ⟨within, rfl⟩ := computed.numbers.vertexAt_of_order? numbered
  exact computed.numbers.vertexAt_lt within

theorem isReachableAt_iff (name : Int) : tree.isReachableAt name = true ↔
    ∃ v, graph.index? name = some v ∧
      graph.Reaches tree.direction (Digraph.start tree.direction) v := by
  simp only [Digraph.index?_eq_some_iff]
  constructor
  · intro isReachable
    obtain ⟨v, rfl, met⟩ := exists_of_isReachableAt isReachable
    exact ⟨v, ⟨rfl, computed.lt_size_of_isReachable met⟩, (computed.isReachable_iff v).mp met⟩
  · rintro ⟨v, ⟨rfl, _⟩, reaches⟩
    exact (computed.isReachable_iff v).mpr reaches

/-- Integers that name no vertex, and vertices that are not reachable, have no immediate
dominator. -/
theorem idomAt?_eq_none {name : Int} (unmet : ∀ v, graph.index? name = some v →
    ¬ graph.Reaches tree.direction (Digraph.start tree.direction) v) :
    tree.idomAt? name = none := by
  cases name with
  | negSucc k => rfl
  | ofNat v =>
      refine computed.idom?_unmet (Option.not_isSome_iff_eq_none.mp fun met => ?_)
      exact unmet v (Digraph.index?_of_lt (computed.lt_size_of_isReachable met))
        ((computed.isReachable_iff v).mp met)

theorem dominatesAt_iff (n m : Int) : tree.dominatesAt n m = true ↔
    ∃ u v, graph.index? n = some u ∧ graph.index? m = some v ∧
      graph.Reaches tree.direction (Digraph.start tree.direction) u ∧
      graph.Reaches tree.direction (Digraph.start tree.direction) v ∧
      graph.Dominates tree.direction u v := by
  constructor
  · intro dominates
    have both := dominates
    rw [dominatesAt, Bool.and_eq_true, Bool.and_eq_true] at both
    obtain ⟨u, rfl, uMet⟩ := exists_of_isReachableAt both.1.1
    obtain ⟨v, rfl, vMet⟩ := exists_of_isReachableAt both.1.2
    rw [dominatesAt_natCast, computed.dominates_iff] at dominates
    exact ⟨u, v, Digraph.index?_of_lt (computed.lt_size_of_isReachable uMet),
      Digraph.index?_of_lt (computed.lt_size_of_isReachable vMet), dominates⟩
  · rintro ⟨u, v, isU, isV, dominates⟩
    obtain ⟨rfl, _⟩ := (Digraph.index?_eq_some_iff graph n u).mp isU
    obtain ⟨rfl, _⟩ := (Digraph.index?_eq_some_iff graph m v).mp isV
    rw [dominatesAt_natCast]
    exact (computed.dominates_iff u v).mpr dominates

/-- The preorder number that bounds the climb from an integer. -/
theorem number_le_size (name : Int) :
    ((tree.orderAt? name).getD 0) ≤ tree.entries.size := by
  cases numbered : tree.orderAt? name with
  | none => exact Nat.zero_le _
  | some j =>
      cases name with
      | negSucc k => cases numbered
      | ofNat v =>
          have within := (computed.numbers.vertexAt_of_order? numbered).1
          have := computed.numbers.count_le
          rw [size_entries, computed.idomSize, Option.getD_some]
          omega

/-- Entries other than that of the start lead to smaller numbers. -/
theorem number_lt_of_entryIn {here next : Int} (entry : entryIn tree.entries here = some next)
    (different : next ≠ here) :
    (tree.orderAt? next).getD 0 < (tree.orderAt? here).getD 0 := by
  obtain ⟨u, v, rfl, rfl, isEntry⟩ := exists_of_entryIn entry
  exact computed.number_lt_of_idom? isEntry fun same => different (congrArg Int.ofNat same)

end Computed

/-! ## The tree of a graph -/

/-- The dominator tree of every graph that edits produce, in either direction, asked by
arbitrary integers: reachability, immediate dominators and dominance are what the walks of
the graph say, and an integer that names no vertex is neither reachable nor dominated nor a
dominator.  A climb up the entries ends, wherever it starts and however far it is allowed to
go. -/
theorem compute_correct (built : graph.Built) (direction : Direction) :
    (∀ name, (compute graph direction).isReachableAt name = true ↔
      ∃ v, graph.index? name = some v ∧
        graph.Reaches direction (Digraph.start direction) v) ∧
    (compute graph direction).idomAt? (Digraph.start direction) =
      some (Digraph.start direction) ∧
    (∀ name, name < 0 ∨ (graph.size : Int) ≤ name ∨
        ¬ graph.Reaches direction (Digraph.start direction) name.toNat →
      (compute graph direction).idomAt? name = none) ∧
    (∀ v : Nat, graph.Reaches direction (Digraph.start direction) v →
      v ≠ Digraph.start direction →
      ∃ d, (compute graph direction).idomAt? v = some d ∧
        ImmediatelyDominates graph direction d v ∧
        ∀ d', ImmediatelyDominates graph direction d' v → d' = d) ∧
    (∀ n m, (compute graph direction).dominatesAt n m = true ↔
      ∃ u v, graph.index? n = some u ∧ graph.index? m = some v ∧
        graph.Reaches direction (Digraph.start direction) u ∧
        graph.Reaches direction (Digraph.start direction) v ∧
        graph.Dominates direction u v) ∧
    (WellFounded fun next here =>
      entryIn (compute graph direction).entries here = some next ∧ next ≠ here) ∧
    ∀ n m fuel, (compute graph direction).entries.size ≤ fuel →
      climbsTo (entryIn (compute graph direction).entries) n fuel m =
        dominatesIn (compute graph direction).entries n m := by
  have computed := computed_compute built.consistent direction
  refine ⟨computed.isReachableAt_iff, computed.idom?_start, ?_, ?_, computed.dominatesAt_iff,
    ?_, ?_⟩
  · intro name outside
    refine computed.idomAt?_eq_none fun v isVertex reaches => ?_
    obtain ⟨rfl, within⟩ := (Digraph.index?_eq_some_iff graph name v).mp isVertex
    rcases outside with negative | beyond | unreached
    · omega
    · omega
    · exact unreached reaches
  · intro v reaches notStart
    obtain ⟨d, entry, immediate⟩ := computed.immediatelyDominates reaches notStart
    exact ⟨d, entry, immediate, fun d' other =>
      computed.immediatelyDominates_unique reaches immediate other⟩
  · exact Subrelation.wf (fun step => computed.number_lt_of_entryIn step.1 step.2)
      (measure fun name => ((compute graph direction).orderAt? name).getD 0).wf
  · intro n m fuel enough
    have bound := computed.number_le_size m
    exact climbsTo_eq_of_rank computed.number_lt_of_entryIn n (by omega) (by omega)

/-- Vertex 4 is entered from 2, its semidominator, and from 3, which 2 does not dominate;
vertex 5 leads to 4 and is not reachable. -/
def bypassed : Digraph Unit :=
  .ofEdges 4 [(0, 2), (0, 3), (2, 3), (3, 4), (2, 4), (4, 1), (5, 4)]

/-- The immediate dominator of 4 is taken over from that of 3.  Backward, 4 dominates the
vertex that is not reachable forward. -/
theorem compute_correct_bypassed :
    (compute bypassed .forward).idomAt? 4 = some 0 ∧
      ImmediatelyDominates bypassed .forward 0 4 ∧
      ¬ bypassed.Dominates .forward 3 4 ∧ bypassed.Dominates .forward 4 1 ∧
      (compute bypassed .forward).idomAt? 5 = none ∧
      (compute bypassed .forward).idomAt? (-1) = none ∧
      (compute bypassed .backward).dominatesAt 4 5 = true ∧
      (compute bypassed .backward).dominatesAt (-1) 5 = false := by
  have built : bypassed.Built := Digraph.built_ofEdges (by decide)
  obtain ⟨reachable_iff, _, absent, immediate, dominates_iff, _⟩ :=
    compute_correct built .forward
  have reaches {v : Nat} (within : v < bypassed.size)
      (answer : (compute bypassed .forward).isReachableAt v = true) :
      bypassed.Reaches .forward (Digraph.start .forward) v := by
    obtain ⟨u, isVertex, reaches⟩ := (reachable_iff v).mp answer
    rw [Digraph.index?_of_lt within] at isVertex
    exact Option.some.inj isVertex ▸ reaches
  have entry : (compute bypassed .forward).idomAt? 4 = some 0 := by decide +kernel
  obtain ⟨d, isEntry, isImmediate, _⟩ :=
    immediate 4 (reaches (by decide +kernel) (by decide +kernel)) (by decide)
  have isRoot : d = 0 := Option.some.inj (isEntry.symm.trans entry)
  refine ⟨entry, isRoot ▸ isImmediate, fun dominates => ?_, ?_, absent 5 ?_,
    absent (-1) (.inl (by decide)), by decide +kernel, by decide +kernel⟩
  · have answer := (dominates_iff 3 4).mpr ⟨3, 4, by decide +kernel, by decide +kernel,
      reaches (by decide +kernel) (by decide +kernel),
      reaches (by decide +kernel) (by decide +kernel), dominates⟩
    exact absurd answer (by decide +kernel)
  · obtain ⟨u, v, isU, isV, _, _, dominates⟩ := (dominates_iff 4 1).mp (by decide +kernel)
    rw [show bypassed.index? 4 = some 4 by decide +kernel, Option.some.injEq] at isU
    rw [show bypassed.index? 1 = some 1 by decide +kernel, Option.some.injEq] at isV
    exact isU ▸ isV ▸ dominates
  · refine .inr (.inr fun reaches => ?_)
    have answer := (reachable_iff 5).mpr ⟨5, by decide +kernel, reaches⟩
    exact absurd answer (by decide +kernel)

end FlowRegions.DominatorTree
