import FlowRegions.Proofs.Dominance.Workspace

/-!
Contract: the dominator tree of a graph is the dominator tree of its walks.

Owns:
- the two passes over all vertices, `ready_processed` and `resolved_all`;
- the reading of dominance between numbered vertices as a statement about walks
  of the graph;
- `Computed`, what the computation enters, with the reachability, the immediate
  dominators and the dominance that follow for vertices.
-/

namespace FlowRegions.DominatorTree

variable {α : Type} {graph : Digraph α} {direction : Direction} {numbering : Numbering}
  {semi : Nat → Nat} {work : Workspace}

namespace Workspace

/-! ## The two passes -/

/-- The numbers up to `i` have their immediate dominators, the others are
settled. -/
structure Resolved (graph : Digraph α) (direction : Direction) (numbering : Numbering)
    (semi : Nat → Nat) (i : Nat) (work : Workspace) : Prop where
  semis : ∀ {j}, 0 < j → j < numbering.sequence.size →
    work.semiOf (numbering.vertexAt j) = semi j
  idomSize : work.idom.size = graph.size
  resolved : ∀ {j}, 0 < j → j ≤ i → j < numbering.sequence.size → ∃ d,
    (work.idom[numbering.vertexAt j]?).join = some (numbering.vertexAt d) ∧
      IsImmediateDominator numbering.parentNumber (numbering.Edge graph direction) d j
  settled : ∀ {j}, i < j → j < numbering.sequence.size → Settled numbering semi work.idom j
  confined : Confined numbering work.idom

section

variable (numbers : numbering.Numbers graph direction)
  (known : ∀ u, 0 < u → u < numbering.sequence.size →
    IsSemidominator (numbering.Edge graph direction) u (semi u))
include numbers known

/-- The first pass processes every vertex but the start. -/
theorem ready_processed (consistent : graph.Consistent) (k : Nat)
    (within : k < numbering.sequence.size) (ready : Ready graph numbering semi k work) :
    Ready graph numbering semi 0
      (((List.range k).map fun i => numbering.vertexAt (i + 1)).reverse.foldl
        (process graph direction numbering) work) := by
  induction k generalizing work with
  | zero => exact ready
  | succ k inductionHypothesis =>
      rw [List.range_succ, List.map_append, List.reverse_append]
      exact inductionHypothesis (by omega) (ready.process numbers consistent known within)

/-- Nothing waits any more when all vertices are processed. -/
theorem Ready.resolved (ready : Ready graph numbering semi 0 work) :
    Resolved graph direction numbering semi 0 work where
  semis := fun positive within => ready.semis.processed positive within
  idomSize := ready.idomSize
  resolved := fun positive early => by omega
  settled := by
    intro j positive within
    rcases ready.settled positive within with waiting | settled
    · have home := numbers.tree.semidominator_lt (known j positive within) positive within
      obtain ⟨_, _, _, _, _, c, cPositive, early, _⟩ := ready.waits (by omega) waiting
      omega
    · exact settled
  confined := ready.confined

/-- A settled vertex gets its immediate dominator once those before it have
theirs. -/
theorem Resolved.resolve {i : Nat} (before : Resolved graph direction numbering semi i work)
    (within : i + 1 < numbering.sequence.size) :
    Resolved graph direction numbering semi (i + 1)
      (resolve numbering work (numbering.vertexAt (i + 1))) := by
  obtain ⟨u, entry, tells⟩ := before.settled (j := i + 1) (by omega) within
  have semiHere : work.semiOf (numbering.vertexAt (i + 1)) = semi (i + 1) :=
    before.semis (Nat.succ_pos i) within
  have semiBelow := numbers.tree.semidominator_lt (known (i + 1) (Nat.succ_pos i) within)
    (Nat.succ_pos i) within
  unfold Workspace.resolve
  rw [entry, semiHere]
  rcases tells with ⟨rfl, none⟩ | ⟨ancestor, behind, smaller, least⟩
  · -- The semidominator is the immediate dominator and stays.
    rw [if_pos rfl]
    refine ⟨before.semis, before.idomSize, ?_, ?_, before.confined⟩
    · intro j positive early jWithin
      rcases Nat.lt_or_eq_of_le early with earlier | rfl
      · exact before.resolved positive (by omega) jWithin
      · exact ⟨_, entry, numbers.tree.isImmediateDominator_of_semi known positive within
          fun {y} => none y⟩
    · exact fun later jWithin => before.settled (by omega) jWithin
  · have uBefore : u ≤ i := by
      have := numbers.tree.ancestor_le ancestor within
      have : u ≠ i + 1 := by
        rintro rfl
        omega
      omega
    have notSemi : ¬ some (numbering.vertexAt u) = some (numbering.vertexAt (semi (i + 1))) := by
      intro same
      have := numbers.vertexAt_injective (by omega) (by omega) (Option.some.inj same)
      omega
    obtain ⟨d, uEntry, uImmediate⟩ := before.resolved (by omega) uBefore (by omega)
    rw [if_neg notSemi, Option.bind_some, uEntry]
    have inBounds : numbering.vertexAt (i + 1) < work.idom.size := by
      rw [before.idomSize]
      exact numbers.vertexAt_lt within
    have other {j : Nat} (jWithin : j < numbering.sequence.size) (different : j ≠ i + 1) :
        ((work.idom.setIfInBounds (numbering.vertexAt (i + 1))
          (some (numbering.vertexAt d)))[numbering.vertexAt j]?).join =
          (work.idom[numbering.vertexAt j]?).join := by
      rw [join_setIfInBounds, if_neg]
      exact fun both => different (numbers.vertexAt_injective jWithin within both.1.symm)
    refine ⟨before.semis, by rw [Array.size_setIfInBounds, before.idomSize], ?_, ?_, ?_⟩
    · intro j positive early jWithin
      by_cases last : j = i + 1
      · subst last
        refine ⟨d, by rw [join_setIfInBounds, if_pos ⟨rfl, inBounds⟩], ?_⟩
        exact numbers.tree.isImmediateDominator_of_least known positive within ancestor behind
          smaller (fun {y} => least y) uImmediate
      · rw [other jWithin last]
        exact before.resolved positive (by omega) jWithin
    · intro j later jWithin
      obtain ⟨u', entry', tells'⟩ := before.settled (by omega) jWithin
      exact ⟨u', by rw [other jWithin (by omega), entry'], tells'⟩
    · intro x unmet
      rw [join_setIfInBounds, if_neg, before.confined x unmet]
      rintro ⟨rfl, _⟩
      rw [numbers.order?_vertexAt within] at unmet
      cases unmet

/-- The second pass resolves every vertex. -/
theorem resolved_all (before : Resolved graph direction numbering semi 0 work) (i : Nat)
    (within : i < numbering.sequence.size) :
    Resolved graph direction numbering semi i
      (((List.range i).map fun i => numbering.vertexAt (i + 1)).foldl
        (resolve numbering) work) := by
  induction i with
  | zero => exact before
  | succ i inductionHypothesis =>
      rw [List.range_succ, List.map_append, List.foldl_append]
      exact (inductionHypothesis (by omega)).resolve numbers known within

end

end Workspace

/-! ## Dominance between numbers and between vertices -/

theorem guards_self (edge : Nat → Nat → Prop) (a : Nat) : Guards edge a a := by
  intro notStart past
  cases past with
  | refl => exact notStart rfl
  | tail _ step => exact step.2 rfl

/-- A walk past `a` passes `d` by as well, or a part of it leads to `d`. -/
theorem past_cases {edge : Nat → Nat → Prop} {a w : Nat} (d : Nat)
    (past : Relation.ReflTransGen (fun u v => edge u v ∧ v ≠ a) 0 w) :
    Relation.ReflTransGen (fun u v => edge u v ∧ v ≠ d) 0 w ∨
      Relation.ReflTransGen (fun u v => edge u v ∧ v ≠ a) 0 d := by
  induction past with
  | refl => exact .inl .refl
  | @tail u v walk step inductionHypothesis =>
      by_cases arrives : v = d
      · exact .inr (arrives ▸ walk.tail step)
      · rcases inductionHypothesis with past | found
        · exact .inl (past.tail ⟨step.1, arrives⟩)
        · exact .inr found

/-- What guards a vertex is the vertex itself and what guards its immediate
dominator. -/
theorem guards_iff_of_isImmediateDominator {count : Nat} {parent : Nat → Nat}
    {edge : Nat → Nat → Prop} (tree : DepthFirst count parent edge) {a d w : Nat}
    (immediate : IsImmediateDominator parent edge d w) (within : w < count) :
    Guards edge a w ↔ a = w ∨ Guards edge a d := by
  have proper := immediate.proper
  constructor
  · intro guards
    have ancestor := tree.ancestor_of_guards guards within
    have early := tree.ancestor_le ancestor within
    by_cases same : a = w
    · exact .inl same
    · refine .inr fun notStart past => guards notStart ?_
      have notBetween : ¬ d < a := fun later => immediate.last ancestor later (by omega) guards
      exact past.trans (Relation.ReflTransGen.mono (fun u v step => ⟨step.1, by omega⟩)
        _ _ (tree.walk_down immediate.ancestor within))
  · rintro (rfl | guards)
    · exact guards_self edge a
    · intro notStart past
      rcases past_cases d past with pastD | toD
      · by_cases start : 0 = d
        · subst start
          exact guards notStart .refl
        · exact immediate.guards start pastD
      · exact guards notStart toD

section

variable (numbers : numbering.Numbers graph direction)
include numbers

theorem vertexAt_past {a b : Nat} (aWithin : a < numbering.sequence.size)
    (past : Relation.ReflTransGen (fun u v => numbering.Edge graph direction u v ∧ v ≠ a) 0 b) :
    Relation.ReflTransGen (graph.EdgePast direction (numbering.vertexAt a))
      (Digraph.start direction) (numbering.vertexAt b) := by
  rw [← numbers.vertexAt_zero]
  refine Relation.ReflTransGen.lift numbering.vertexAt ?_ _ _ past
  rintro u v ⟨⟨_, vWithin, edge⟩, notA⟩
  exact ⟨edge, fun same => notA (numbers.vertexAt_injective vWithin aWithin same)⟩

theorem exists_number_past {a x : Nat}
    (past : Relation.ReflTransGen (graph.EdgePast direction (numbering.vertexAt a))
      (Digraph.start direction) x) :
    ∃ b, numbering.order? x = some b ∧
      Relation.ReflTransGen (fun u v => numbering.Edge graph direction u v ∧ v ≠ a) 0 b := by
  induction past with
  | refl =>
      rw [← numbers.vertexAt_zero]
      exact ⟨0, numbers.order?_vertexAt numbers.nonempty, .refl⟩
  | @tail u v _ step inductionHypothesis =>
      obtain ⟨b, numbered, walk⟩ := inductionHypothesis
      obtain ⟨bWithin, bAt⟩ := numbers.vertexAt_of_order? numbered
      have reached : graph.Reaches direction (Digraph.start direction) u :=
        (numbers.met_iff u).mp (by rw [numbered]; rfl)
      obtain ⟨c, numberedV⟩ := Option.isSome_iff_exists.mp
        ((numbers.met_iff v).mpr (reached.edge step.1))
      obtain ⟨cWithin, cAt⟩ := numbers.vertexAt_of_order? numberedV
      refine ⟨c, numberedV, walk.tail ⟨⟨bWithin, cWithin, ?_⟩, ?_⟩⟩
      · rw [bAt, cAt]
        exact step.1
      · rintro rfl
        exact step.2 cAt.symm

/-- Guarding is dominance between the vertices that the numbers stand for. -/
theorem guards_iff_dominates {a b : Nat} (aWithin : a < numbering.sequence.size)
    (bWithin : b < numbering.sequence.size) :
    Guards (numbering.Edge graph direction) a b ↔
      graph.Dominates direction (numbering.vertexAt a) (numbering.vertexAt b) := by
  have start_iff : Digraph.start direction ≠ numbering.vertexAt a ↔ 0 ≠ a := by
    rw [← numbers.vertexAt_zero, not_iff_not]
    exact ⟨numbers.vertexAt_injective numbers.nonempty aWithin, congrArg _⟩
  rw [← not_iff_not, Digraph.not_dominates_iff, start_iff]
  simp only [Guards, Classical.not_imp, not_not]
  refine and_congr_right fun _ => ⟨vertexAt_past numbers aWithin, fun past => ?_⟩
  obtain ⟨b', numbered, walk⟩ := exists_number_past numbers past
  rw [numbers.order?_vertexAt bWithin] at numbered
  cases numbered
  exact walk

end

/-! ## The tree -/

/-- A walk up entries that fall in rank ends by itself: more fuel than the rank
changes nothing. -/
theorem climbsTo_eq_of_rank {ν : Type} [DecidableEq ν] {up : ν → Option ν} {rank : ν → Nat}
    (falls : ∀ {here next}, up here = some next → next ≠ here → rank next < rank here)
    (goal : ν) {fuel fuel' : Nat} {here : ν} (enough : rank here ≤ fuel)
    (enough' : rank here ≤ fuel') :
    climbsTo up goal fuel here = climbsTo up goal fuel' here := by
  have ends (fuel : Nat) {here : ν} (enough : rank here ≤ fuel) :
      climbsTo up goal fuel here = climbsTo up goal (fuel + 1) here := by
    induction fuel generalizing here with
    | zero =>
        rw [climbsTo, climbsTo]
        cases entry : up here with
        | none => simp
        | some next =>
            by_cases same : next = here
            · simp [same]
            · have := falls entry same
              omega
    | succ fuel inductionHypothesis =>
        rw [climbsTo, climbsTo]
        cases entry : up here with
        | none => rfl
        | some next =>
            by_cases same : next = here
            · simp [same]
            · have falls := falls entry same
              have rest : climbsTo up goal fuel next = climbsTo up goal (fuel + 1) next :=
                inductionHypothesis (by omega)
              dsimp only
              rw [rest]
  have settles (extra : Nat) : climbsTo up goal (rank here + extra) here =
      climbsTo up goal (rank here) here := by
    induction extra with
    | zero => rfl
    | succ extra inductionHypothesis =>
        rw [← inductionHypothesis]
        exact (ends (rank here + extra) (by omega)).symm
  obtain ⟨extra, rfl⟩ := Nat.exists_eq_add_of_le enough
  obtain ⟨extra', rfl⟩ := Nat.exists_eq_add_of_le enough'
  rw [settles, settles]

/-- What the computation enters, in terms of numbers. -/
structure Computed (graph : Digraph α) (tree : DominatorTree) : Prop where
  numbers : tree.numbering.Numbers graph tree.direction
  idomSize : tree.idom.size = graph.size
  idom?_start : tree.idom? (Digraph.start tree.direction) = some (Digraph.start tree.direction)
  idom?_vertexAt : ∀ {j}, 0 < j → j < tree.numbering.sequence.size → ∃ d,
    tree.idom? (tree.numbering.vertexAt j) = some (tree.numbering.vertexAt d) ∧
      IsImmediateDominator tree.numbering.parentNumber
        (tree.numbering.Edge graph tree.direction) d j
  idom?_unmet : ∀ {x}, tree.numbering.order? x = none → tree.idom? x = none

theorem computed_compute (consistent : graph.Consistent) (direction : Direction) :
    Computed graph (compute graph direction) := by
  have numbers := Numbering.numbers_ofDigraph consistent direction
  obtain ⟨semi, known⟩ := numbers.tree.exists_semidominators
  obtain ⟨count, countEq⟩ : ∃ count, (Numbering.ofDigraph graph direction).sequence.size =
      count + 1 := ⟨_ - 1, (Nat.succ_pred_eq_of_pos numbers.nonempty).symm⟩
  have ready : Workspace.Ready graph _ semi count (Workspace.start graph.size _) :=
    Workspace.ready_start numbers countEq
  have processed := Workspace.ready_processed numbers known consistent count (by omega) ready
  have resolved := Workspace.resolved_all numbers known (processed.resolved numbers known) count
    (by omega)
  have shape : (Numbering.ofDigraph graph direction).sequence.toList.drop 1 =
      (List.range count).map fun i => (Numbering.ofDigraph graph direction).vertexAt (i + 1) := by
    rw [Numbering.Numbers.drop_one_sequence, countEq]
    rfl
  have startWithin := Digraph.start_lt_size consistent direction
  unfold compute
  dsimp only
  rw [shape]
  revert resolved
  generalize (List.foldl (Workspace.resolve _) _ _) = final
  intro resolved
  have inBounds : Digraph.start direction < final.idom.size := by rwa [resolved.idomSize]
  refine
    { numbers := numbers
      idomSize := by
        show (Array.setIfInBounds _ _ _).size = _
        rw [Array.size_setIfInBounds, resolved.idomSize]
      idom?_start := ?_
      idom?_vertexAt := ?_
      idom?_unmet := ?_ }
  · unfold idom?
    rw [Workspace.join_setIfInBounds, if_pos ⟨rfl, inBounds⟩]
  · intro j positive within
    have last : j < (Numbering.ofDigraph graph direction).sequence.size := within
    obtain ⟨d, entry, immediate⟩ := resolved.resolved positive (by omega) within
    refine ⟨d, ?_, immediate⟩
    unfold idom?
    rw [Workspace.join_setIfInBounds, if_neg, entry]
    rintro ⟨same, _⟩
    rw [← numbers.vertexAt_zero] at same
    have := numbers.vertexAt_injective numbers.nonempty within same
    omega
  · intro x unmet
    unfold idom?
    rw [Workspace.join_setIfInBounds, if_neg, resolved.confined x unmet]
    rintro ⟨rfl, _⟩
    have met := numbers.order?_vertexAt numbers.nonempty
    rw [numbers.vertexAt_zero] at met
    rw [met] at unmet
    cases unmet

namespace Computed

variable {tree : DominatorTree} (computed : Computed graph tree)
include computed

theorem isReachable_iff (v : Nat) :
    tree.isReachable v = true ↔ graph.Reaches tree.direction (Digraph.start tree.direction) v :=
  computed.numbers.met_iff v

theorem exists_number {v : Nat}
    (reaches : graph.Reaches tree.direction (Digraph.start tree.direction) v) :
    ∃ j, j < tree.numbering.sequence.size ∧ tree.numbering.vertexAt j = v := by
  obtain ⟨j, numbered⟩ := Option.isSome_iff_exists.mp ((computed.numbers.met_iff v).mpr reaches)
  exact ⟨j, computed.numbers.vertexAt_of_order? numbered⟩

/-- Entries other than that of the start lead to smaller numbers. -/
theorem number_lt_of_idom? {here next : Nat} (entry : tree.idom? here = some next)
    (different : next ≠ here) :
    (tree.numbering.order? next).getD 0 < (tree.numbering.order? here).getD 0 := by
  cases numbered : tree.numbering.order? here with
  | none =>
      rw [computed.idom?_unmet numbered] at entry
      cases entry
  | some j =>
      obtain ⟨within, rfl⟩ := computed.numbers.vertexAt_of_order? numbered
      rcases Nat.eq_zero_or_pos j with rfl | positive
      · rw [computed.numbers.vertexAt_zero] at entry different
        rw [computed.idom?_start] at entry
        exact absurd (Option.some.inj entry).symm different
      · obtain ⟨d, isAt, immediate⟩ := computed.idom?_vertexAt positive within
        rw [entry] at isAt
        rw [Option.some.inj isAt, computed.numbers.order?_vertexAt
          (Nat.lt_trans immediate.proper within)]
        exact immediate.proper

/-- A climb up the tree finds exactly what guards the vertex it starts from. -/
theorem climbsTo_iff {a : Nat} (aWithin : a < tree.numbering.sequence.size) (fuel : Nat) {j : Nat}
    (within : j < tree.numbering.sequence.size) (enough : j ≤ fuel) :
    climbsTo tree.idom? (tree.numbering.vertexAt a) fuel (tree.numbering.vertexAt j) = true ↔
      Guards (tree.numbering.Edge graph tree.direction) a j := by
  have same_iff (i : Nat) (iWithin : i < tree.numbering.sequence.size) :
      tree.numbering.vertexAt i = tree.numbering.vertexAt a ↔ a = i :=
    ⟨fun same => (computed.numbers.vertexAt_injective iWithin aWithin same).symm,
      fun same => same ▸ rfl⟩
  have guards_zero : Guards (tree.numbering.Edge graph tree.direction) a 0 ↔ a = 0 :=
    ⟨fun guards => by
      by_contra notZero
      exact guards (fun zero => notZero zero.symm) .refl,
      fun zero notZero => absurd zero.symm notZero⟩
  induction fuel generalizing j with
  | zero =>
      obtain rfl : j = 0 := by omega
      rw [climbsTo, decide_eq_true_iff, same_iff 0 within, guards_zero]
  | succ fuel inductionHypothesis =>
      rw [climbsTo, Bool.or_eq_true, decide_eq_true_iff, same_iff j within]
      rcases Nat.eq_zero_or_pos j with rfl | positive
      · rw [computed.numbers.vertexAt_zero, computed.idom?_start, guards_zero]
        simp
      · obtain ⟨d, entry, immediate⟩ := computed.idom?_vertexAt positive within
        have dBelow := immediate.proper
        have moves : tree.numbering.vertexAt d ≠ tree.numbering.vertexAt j := by
          intro same
          have := computed.numbers.vertexAt_injective (by omega) within same
          omega
        have rest : climbsTo tree.idom? (tree.numbering.vertexAt a) fuel
            (tree.numbering.vertexAt d) = true ↔
            Guards (tree.numbering.Edge graph tree.direction) a d :=
          inductionHypothesis (by omega) (by omega)
        rw [entry, guards_iff_of_isImmediateDominator computed.numbers.tree immediate within,
          ← rest]
        simp [moves]

theorem dominates_iff (n m : Nat) :
    tree.dominates n m = true ↔
      graph.Reaches tree.direction (Digraph.start tree.direction) n ∧
      graph.Reaches tree.direction (Digraph.start tree.direction) m ∧
      graph.Dominates tree.direction n m := by
  rw [dominates, Bool.and_eq_true, Bool.and_eq_true, computed.isReachable_iff,
    computed.isReachable_iff, and_assoc]
  refine and_congr_right fun nReached => and_congr_right fun mReached => ?_
  obtain ⟨a, aWithin, rfl⟩ := computed.exists_number nReached
  obtain ⟨b, bWithin, rfl⟩ := computed.exists_number mReached
  have := computed.numbers.count_le
  rw [computed.climbsTo_iff aWithin _ bWithin (by rw [computed.idomSize]; omega),
    guards_iff_dominates computed.numbers aWithin bWithin]

end Computed

/-- `d` dominates `v` strictly, and what dominates `v` strictly dominates `d`. -/
def ImmediatelyDominates (graph : Digraph α) (direction : Direction) (d v : Nat) : Prop :=
  d ≠ v ∧ graph.Dominates direction d v ∧
    ∀ n, n ≠ v → graph.Dominates direction n v → graph.Dominates direction n d

theorem Computed.immediatelyDominates {tree : DominatorTree} (computed : Computed graph tree)
    {v : Nat} (reaches : graph.Reaches tree.direction (Digraph.start tree.direction) v)
    (notStart : v ≠ Digraph.start tree.direction) :
    ∃ d, tree.idom? v = some d ∧ ImmediatelyDominates graph tree.direction d v := by
  obtain ⟨j, within, rfl⟩ := computed.exists_number reaches
  have positive : 0 < j := by
    rcases Nat.eq_zero_or_pos j with rfl | positive
    · exact absurd computed.numbers.vertexAt_zero notStart
    · exact positive
  obtain ⟨d, entry, immediate⟩ := computed.idom?_vertexAt positive within
  have dBelow := immediate.proper
  have guards_iff {a b : Nat} (aWithin : a < tree.numbering.sequence.size)
      (bWithin : b < tree.numbering.sequence.size) :=
    guards_iff_dominates computed.numbers aWithin bWithin
  refine ⟨_, entry, ?_, (guards_iff (by omega) within).mp immediate.guards, ?_⟩
  · intro same
    have := computed.numbers.vertexAt_injective (by omega) within same
    omega
  · intro n different dominates
    obtain ⟨a, aWithin, rfl⟩ := computed.exists_number (dominates.reaches reaches)
    rw [← guards_iff aWithin within,
      guards_iff_of_isImmediateDominator computed.numbers.tree immediate within] at dominates
    rcases dominates with rfl | guards
    · exact absurd rfl different
    · exact (guards_iff aWithin (by omega)).mp guards

/-- Two strict dominators that dominate each other are the same vertex. -/
theorem Computed.immediatelyDominates_unique {tree : DominatorTree}
    (computed : Computed graph tree) {v d d' : Nat}
    (reaches : graph.Reaches tree.direction (Digraph.start tree.direction) v)
    (first : ImmediatelyDominates graph tree.direction d v)
    (second : ImmediatelyDominates graph tree.direction d' v) : d' = d := by
  obtain ⟨a, aWithin, rfl⟩ := computed.exists_number (first.2.1.reaches reaches)
  obtain ⟨b, bWithin, rfl⟩ := computed.exists_number (second.2.1.reaches reaches)
  have up := first.2.2 _ second.1 second.2.1
  have down := second.2.2 _ first.1 first.2.1
  rw [← guards_iff_dominates computed.numbers bWithin aWithin] at up
  rw [← guards_iff_dominates computed.numbers aWithin bWithin] at down
  have := computed.numbers.tree.ancestor_le
    (computed.numbers.tree.ancestor_of_guards up aWithin) aWithin
  have := computed.numbers.tree.ancestor_le
    (computed.numbers.tree.ancestor_of_guards down bWithin) bWithin
  rw [show a = b by omega]

end FlowRegions.DominatorTree
