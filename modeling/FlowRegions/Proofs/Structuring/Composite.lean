import FlowRegions.Proofs.Structuring.Fidelity

/-!
Contract: how the regions that rules build start and end.

Owns:
- `Matches.firstVertex?_new`: a composite starts where its entry starts;
- `Matches.ending_new`: a composite has at most one branch, unless it is a
  sequence, which ends as its last part does, or a region into whose branch a
  test was folded;
- `State.Legal.keeps_faithful`, that every legal step keeps region graphs
  faithful, assembled from this and the effects of the other steps.
-/

namespace FlowRegions

open FlowRegions.Digraph (root terminator)

namespace RegionGraph

variable {config : Config} {labels : List Nat} {targets : Nat → List Nat}
  {graph changed : RegionGraph} {collapse : Collapse} {v new : Nat}

/-- The parts of a region in a sequence: those of a sequence, or the region
itself. -/
theorem sequenceParts_cases (graph : RegionGraph) (v : Nat) :
    (∃ nodes, graph.table v = some ⟨.seq nodes, none⟩ ∧ graph.sequenceParts v = nodes) ∨
      graph.sequenceParts v = [v] := by
  unfold sequenceParts
  split
  · rename_i nodes found
    exact .inl ⟨nodes, found, rfl⟩
  · exact .inr rfl

section New

variable (wellFormed : graph.WellFormed) (fits : graph.Fits collapse)
  (collapsed : Collapsed graph collapse new changed)
include wellFormed fits collapsed

theorem Collapsed.firstVertex?_at_new : changed.firstVertex? new =
    NodeTable.firstLevel.at? (some collapse.node) changed.firstVertex? := by
  rw [(collapsed.keeps_wellFormed wellFormed fits).firstVertex?_unfold
    (by rw [collapsed.size_eq]; omega), collapsed.table_new]

theorem Collapsed.branchingVertex?_at_new : changed.branchingVertex? new =
    NodeTable.branchingLevel.at? (some collapse.node) changed.branchingVertex? := by
  rw [(collapsed.keeps_wellFormed wellFormed fits).branchingVertex?_unfold
    (by rw [collapsed.size_eq]; omega), collapsed.table_new]

theorem Collapsed.branchCond?_at_new : changed.branchCond? new =
    NodeTable.condLevel.at? (some collapse.node) changed.branchCond? := by
  rw [(collapsed.keeps_wellFormed wellFormed fits).branchCond?_unfold
    (by rw [collapsed.size_eq]; omega), collapsed.table_new]

omit fits in
theorem Collapsed.new_real : new ≠ terminator := by
  have := collapsed.size_le
  have := wellFormed.consistent.atLeastTwo
  simp only [terminator]
  omega

/-- A composite whose kind has no branch of its own has at most one branch. -/
theorem Collapsed.ending_closed
    (noBranch : collapse.node.kind ≠ .leaf ∧ collapse.node.kind ≠ .seq ∧
      collapse.node.kind ≠ .tail)
    (few : collapse.out.length ≤ 1) : Ending config targets changed new := by
  have unbranched := NodeTable.unbranched_of_kind noBranch changed.branchingVertex?
    changed.branchCond?
  refine .closed ?_ ?_ ?_
  · rw [collapsed.branchingVertex?_at_new wellFormed fits, unbranched.1]
  · rw [collapsed.branchCond?_at_new wellFormed fits, unbranched.2]
  · rw [collapsed.branches_new (wellFormed.ne_terminator_of_isLive (fits.live _ fits.entry_mem))
      (collapsed.new_real wellFormed), List.length_map]
    exact Nat.le_trans (List.length_filter_le _ _) few

/-! ### Sequences -/

/-- A sequence ends in the branch of its last region. -/
theorem Collapsed.branchingVertex?_sequence {front : List Nat} {next : Nat}
    (isNode : collapse.node = { shape := .seq (front ++ graph.sequenceParts next) })
    (nextWithin : next < graph.size) :
    changed.branchingVertex? new = graph.branchingVertex? next := by
  have after := collapsed.keeps_wellFormed wellFormed fits
  have growth := collapsed.growth
  rw [← growth.branchingVertex?_eq wellFormed.nested nextWithin,
    collapsed.branchingVertex?_at_new wellFormed fits, isNode]
  change (front ++ graph.sequenceParts next).getLast?.bind _ = _
  rw [List.getLast?_append_of_ne_nil _ (sequenceParts_ne_nil wellFormed next)]
  rcases sequenceParts_cases graph next with ⟨nodes, isSeq, parts⟩ | parts
  · rw [after.branchingVertex?_unfold (Nat.lt_of_lt_of_le nextWithin growth.size_le),
      growth.table_old nextWithin, isSeq, parts]
    rfl
  · rw [parts]
    rfl

theorem Collapsed.branchCond?_sequence {front : List Nat} {next : Nat}
    (isNode : collapse.node = { shape := .seq (front ++ graph.sequenceParts next) })
    (nextWithin : next < graph.size) :
    changed.branchCond? new = graph.branchCond? next := by
  have after := collapsed.keeps_wellFormed wellFormed fits
  have growth := collapsed.growth
  rw [← growth.branchCond?_eq wellFormed.nested nextWithin,
    collapsed.branchCond?_at_new wellFormed fits, isNode]
  change (front ++ graph.sequenceParts next).getLast?.bind _ = _
  rw [List.getLast?_append_of_ne_nil _ (sequenceParts_ne_nil wellFormed next)]
  rcases sequenceParts_cases graph next with ⟨nodes, isSeq, parts⟩ | parts
  · rw [after.branchCond?_unfold (Nat.lt_of_lt_of_le nextWithin growth.size_le),
      growth.table_old nextWithin, isSeq, parts]
    rfl
  · rw [parts]
    rfl

/-- A composite that leads where a member leads starts its branches there. -/
theorem Collapsed.redirected_new {next : Nat} (isOut : collapse.out = graph.successors next)
    (sameFirst : changed.firstVertex? new = graph.firstVertex? collapse.entry) :
    Redirected graph changed next new := by
  have later := collapsed.size_le
  refine .of_map (f := turn collapse.entry new) ?_ ?_ ?_
  · rw [collapsed.branches_new (wellFormed.ne_terminator_of_isLive (fits.live _ fits.entry_mem))
      (collapsed.new_real wellFormed), isOut]
    rfl
  · intro t member
    by_cases isEntry : t = collapse.entry
    · rw [isEntry, turn_old, sameFirst]
    · rw [turn_of_ne isEntry, collapsed.growth.firstVertex?_eq wellFormed.nested
        (isOld_of_branch wellFormed member)]
  · intro a aMember b bMember same
    have := isOld_of_branch wellFormed aMember
    have := isOld_of_branch wellFormed bMember
    exact turn_injective (by omega) (by omega) same

end New

section Rules

variable (wellFormed : graph.WellFormed) (live : graph.isLive v = true)
  (found : Matches config labels graph v collapse)
  (collapsed : Collapsed graph collapse new changed)
include wellFormed live found collapsed

/-- A composite starts where its entry starts. -/
theorem Matches.firstVertex?_new :
    changed.firstVertex? new = graph.firstVertex? collapse.entry := by
  have fits := found.fits wellFormed live
  have after := collapsed.keeps_wellFormed wellFormed fits
  have growth := collapsed.growth
  have entryWithin := Digraph.lt_size_of_isLive (fits.live _ fits.entry_mem)
  have within := Digraph.lt_size_of_isLive live
  have unfolded := collapsed.firstVertex?_at_new wellFormed fits
  rw [← growth.firstVertex?_eq wellFormed.nested entryWithin, unfolded]
  have withinChanged := Nat.lt_of_lt_of_le within growth.size_le
  cases found with
  | compound foldable branch =>
      rw [after.firstVertex?_unfold withinChanged, growth.table_old within, foldable.head_node]
      rfl
  | @sequence next exits proper alone ends =>
      rcases sequenceParts_cases graph v with ⟨nodes, isSeq, parts⟩ | parts
      · have someNode := wellFormed.nested.parts isSeq
        rw [after.firstVertex?_unfold withinChanged, growth.table_old within, isSeq, parts]
        cases nodes with
        | nil => exact absurd rfl someNode
        | cons first rest => rfl
      · rw [parts]
        rfl
  | forever | selfLoop | whileLoop | forLoop | doWhile | ifElse | ifThen | switch => rfl

/-- Turning the entry into the new vertex keeps where targets start. -/
theorem Matches.firstVertex?_turn {t : Nat} (within : t < graph.size) :
    changed.firstVertex? (turn collapse.entry new t) = graph.firstVertex? t := by
  by_cases isEntry : t = collapse.entry
  · rw [isEntry, turn_old, found.firstVertex?_new wellFormed live collapsed]
  · rw [turn_of_ne isEntry, collapsed.growth.firstVertex?_eq wellFormed.nested within]

end Rules

/-! ## Folded tests -/

/-- Where the tests of a folded condition lead. -/
theorem leads_foldedBranch? {m first second : Nat} {folded : Cond}
    {outer inner : Cond × Nat × Nat} (place : Nat → Nat)
    (branch : foldedBranch? m outer inner = some (folded, first, second))
    (outerLeads : outer.1.Leads targets (place outer.2.1) (place outer.2.2))
    (innerLeads : inner.1.Leads targets (place inner.2.1) (place inner.2.2))
    (isFirst : inner.1.first = place m) :
    folded.Leads targets (place first) (place second) ∧ folded.first = outer.1.first := by
  rcases foldedBranch?_cases branch with
    ⟨isArm, shared, rfl, rfl, rfl⟩ | ⟨isArm, shared, rfl, rfl, rfl⟩ |
    ⟨isArm, shared, rfl, rfl, rfl⟩ | ⟨isArm, shared, rfl, rfl, rfl⟩
  · rw [shared] at innerLeads
    rw [← isArm, ← isFirst] at outerLeads
    exact ⟨.and outerLeads innerLeads, rfl⟩
  · rw [shared] at innerLeads
    rw [← isArm, ← isFirst, ← Cond.first_negate] at outerLeads
    exact ⟨.and outerLeads innerLeads.negate, rfl⟩
  · rw [shared] at innerLeads
    rw [← isArm, ← isFirst] at outerLeads
    exact ⟨.or outerLeads innerLeads, rfl⟩
  · rw [shared] at innerLeads
    rw [← isArm, ← isFirst, ← Cond.first_negate] at outerLeads
    exact ⟨.or outerLeads innerLeads.negate, rfl⟩

/-- The two targets of a folded branch are those of the inner branch. -/
theorem Foldable.isTarget {m vertex first second : Nat} {head : Node} {folded : Cond}
    {outer inner : Cond × Nat × Nat}
    (foldable : Foldable config labels graph v m vertex head outer inner)
    (branch : foldedBranch? m outer inner = some (folded, first, second)) :
    first ∈ graph.branches m ∧ second ∈ graph.branches m ∧ first ≠ second := by
  have proper := foldable.inner_proper.1
  rw [foldable.inner_branches]
  rcases foldedBranch?_cases branch with
    ⟨_, shared, _, rfl, rfl⟩ | ⟨_, shared, _, rfl, rfl⟩ | ⟨_, shared, _, rfl, rfl⟩ |
    ⟨_, shared, _, rfl, rfl⟩ <;> simp [← shared, proper, proper.symm]

/-- A region into whose branch a test was folded tests both. -/
theorem Foldable.leads {m vertex first second : Nat} {head : Node} {folded : Cond}
    {outer inner : Cond × Nat × Nat}
    (wellFormed : graph.WellFormed) (faithful : Faithful config targets graph)
    (live : graph.isLive v = true)
    (foldable : Foldable config labels graph v m vertex head outer inner)
    (branch : foldedBranch? m outer inner = some (folded, first, second)) :
    ∃ whenTrue whenFalse, graph.firstVertex? first = some whenTrue ∧
      graph.firstVertex? second = some whenFalse ∧ folded.Leads targets whenTrue whenFalse ∧
      graph.branchingVertex? v = some folded.first := by
  have mLive : graph.isLive m = true := by
    refine wellFormed.isLive_of_mem_branches (v := v) ?_
    rw [foldable.outer_branches]
    rcases foldable.isArm with isArm | isArm <;> simp [isArm]
  obtain ⟨mCond, isLeaf⟩ := foldable.leaf
  have mWithin := Digraph.lt_size_of_isLive mLive
  have mFirst : graph.firstVertex? m = some vertex := by
    rw [wellFormed.firstVertex?_unfold mWithin, isLeaf]
    rfl
  have mVertex : graph.branchingVertex? m = some vertex := by
    rw [wellFormed.branchingVertex?_unfold mWithin, isLeaf]
    rfl
  obtain ⟨outerCond, outerTrue, outerFalse, outerIs, outerVertex, outerFirst, outerSecond,
    outerLeads⟩ := (faithful.ending live).leads foldable.outer_branches
  obtain ⟨innerCond, innerTrue, innerFalse, innerIs, innerVertex, innerFirst, innerSecond,
    innerLeads⟩ := (faithful.ending mLive).leads foldable.inner_branches
  rw [foldable.outer_cond] at outerIs
  rw [foldable.inner_cond] at innerIs
  cases outerIs
  cases innerIs
  rw [mVertex] at innerVertex
  obtain ⟨leads, sameFirst⟩ := leads_foldedBranch?
    (fun t => (graph.firstVertex? t).getD 0) branch
    (by rwa [outerFirst, outerSecond]) (by rwa [innerFirst, innerSecond])
    (by rw [mFirst]; exact (Option.some.inj innerVertex).symm)
  have starts {t : Nat} (member : t ∈ graph.branches m) :
      graph.firstVertex? t = some ((graph.firstVertex? t).getD 0) := by
    obtain ⟨w, isFirst⟩ := faithful.starts (wellFormed.isLive_of_mem_branches member)
    rw [isFirst]
    rfl
  obtain ⟨firstTarget, secondTarget, _⟩ := foldable.isTarget branch
  exact ⟨_, _, starts firstTarget, starts secondTarget, leads, by rw [sameFirst, outerVertex]⟩

/-! ## Every composite -/

section Rules

variable (wellFormed : graph.WellFormed) (faithful : Faithful config targets graph)
  (live : graph.isLive v = true) (found : Matches config labels graph v collapse)
  (collapsed : Collapsed graph collapse new changed)
include wellFormed faithful live found collapsed

theorem Matches.ending_new : Ending config targets changed new := by
  have fits := found.fits wellFormed live
  have after := collapsed.keeps_wellFormed wellFormed fits
  have growth := collapsed.growth
  have within := Digraph.lt_size_of_isLive live
  have withinChanged := Nat.lt_of_lt_of_le within growth.size_le
  have later := collapsed.size_le
  have sameFirst := found.firstVertex?_new wellFormed live collapsed
  have firstTurn {t : Nat} (within : t < graph.size) :=
    found.firstVertex?_turn wellFormed live collapsed within
  have branches_new := collapsed.branches_new
    (wellFormed.ne_terminator_of_isLive (fits.live _ fits.entry_mem))
    (collapsed.new_real wellFormed)
  have vertex_new := collapsed.branchingVertex?_at_new wellFormed fits
  have cond_new := collapsed.branchCond?_at_new wellFormed fits
  cases found with
  | forever | selfLoop | whileLoop | forLoop | doWhile | ifThen =>
      exact collapsed.ending_closed wellFormed fits (by simp [Node.kind, Shape.kind]) (by simp)
  | ifElse _ _ _ _ _ _ atMostOne _ =>
      exact collapsed.ending_closed wellFormed fits (by simp [Node.kind, Shape.kind]) atMostOne
  | @switch follow =>
      exact collapsed.ending_closed wellFormed fits (by simp [Node.kind, Shape.kind])
        (by cases follow <;> simp)
  | @compound m vertex first second head folded outer inner foldable branch =>
      obtain ⟨whenTrue, whenFalse, isFirst, isSecond, leads, isVertex⟩ :=
        foldable.leads wellFormed faithful live branch
      obtain ⟨firstTarget, secondTarget, distinct⟩ := foldable.isTarget branch
      have firstOld := isOld_of_branch wellFormed firstTarget
      have secondOld := isOld_of_branch wellFormed secondTarget
      have sameVertex : changed.branchingVertex? new = graph.branchingVertex? v := by
        rw [← growth.branchingVertex?_eq wellFormed.nested within, vertex_new,
          after.branchingVertex?_unfold withinChanged, growth.table_old within,
          foldable.head_node]
        rfl
      have isCond : changed.branchCond? new = some folded := by
        rw [cond_new]
        obtain ⟨shape, cond⟩ := head
        have kinds := foldable.head_kind
        cases shape with
        | leaf | seq => rfl
        | _ => rcases kinds with isKind | isKind <;> cases isKind
      refine .folded (sameVertex.trans isVertex) isCond rfl
        (a := turn v new first) (b := turn v new second) ?_ ?_ ?_ ?_ leads ?_
      · rw [branches_new, List.filter_eq_self.mpr]
        · rfl
        · simpa using ⟨(mem_branches.mp firstTarget).2, (mem_branches.mp secondTarget).2⟩
      · intro same
        exact distinct (turn_injective (by omega) (by omega) same)
      · exact (firstTurn firstOld).trans isFirst
      · exact (firstTurn secondOld).trans isSecond
      · have notMany := foldable.outer_notMany
        rw [branchesManyWays, isVertex] at notMany
        simpa using (Bool.or_eq_false_iff.mp notMany).2
  | @sequence next exits proper alone ends =>
      have nextLive : graph.isLive next = true := by
        have isExit : next ∈ graph.exits v := by rw [exits]; simp
        exact wellFormed.isLive_of_mem_exits isExit
      have nextWithin := Digraph.lt_size_of_isLive nextLive
      exact (faithful.ending nextLive).transfer
        (collapsed.branchingVertex?_sequence wellFormed fits rfl nextWithin)
        (collapsed.branchCond?_sequence wellFormed fits rfl nextWithin)
        (collapsed.redirected_new wellFormed fits rfl sameFirst)

end Rules

/-! ## Effects -/

section Effects

variable (wellFormed : graph.WellFormed) (faithful : Faithful config targets graph)
include wellFormed faithful

/-- Regions start where they started. -/
private theorem Faithful.starts_old (growth : Extends graph changed) {u : Nat}
    (live : graph.isLive u = true) : ∃ w, changed.firstVertex? u = some w := by
  obtain ⟨w, isFirst⟩ := faithful.starts live
  exact ⟨w, (growth.firstVertex?_eq wellFormed.nested (Digraph.lt_size_of_isLive live)).trans
    isFirst⟩

/-- Strays are left out with all that leads to them. -/
theorem Pruned.keeps_faithful {regions : List Nat} (pruned : Pruned graph regions changed)
    (apart : ∀ {u t}, graph.isLive u = true → u ∉ regions → t ∈ graph.successors u → t ∉ regions) :
    Faithful config targets changed where
  starts := by
    intro u live
    obtain ⟨oldLive, _⟩ := (pruned.live_iff u).mp live
    exact faithful.starts_old wellFormed pruned.growth oldLive
  ending := by
    intro u live
    obtain ⟨oldLive, kept⟩ := (pruned.live_iff u).mp live
    exact pruned.growth.ending wellFormed.nested (Digraph.lt_size_of_isLive oldLive)
      (pruned.redirected_old wellFormed kept fun t edge => apart oldLive kept edge)
      (faithful.ending oldLive)

theorem Collapsed.keeps_faithful (live : graph.isLive v = true)
    (found : Matches config labels graph v collapse)
    (collapsed : Collapsed graph collapse new changed) : Faithful config targets changed := by
  have fits := found.fits wellFormed live
  have sameFirst := found.firstVertex?_new wellFormed live collapsed
  refine ⟨fun {u} isLive => ?_, fun {u} isLive => ?_⟩
  · rcases (collapsed.live_iff u).mp isLive with rfl | ⟨oldLive, _⟩
    · obtain ⟨w, isFirst⟩ := faithful.starts (fits.live _ fits.entry_mem)
      exact ⟨w, sameFirst.trans isFirst⟩
    · exact faithful.starts_old wellFormed collapsed.growth oldLive
  · rcases (collapsed.live_iff u).mp isLive with rfl | ⟨oldLive, outside⟩
    · exact found.ending_new wellFormed faithful live collapsed
    · have within := Digraph.lt_size_of_isLive oldLive
      exact collapsed.growth.ending wellFormed.nested within
        (collapsed.redirected_old wellFormed fits sameFirst within outside)
        (faithful.ending oldLive)

theorem Copied.keeps_faithful {outside : List Nat} (after : changed.WellFormed)
    (live : graph.isLive v = true) (copied : Copied graph v outside changed) :
    Faithful config targets changed := by
  have within := Digraph.lt_size_of_isLive live
  refine ⟨fun {u} isLive => ?_, fun {u} isLive => ?_⟩
  · rcases (copied.live_iff u).mp isLive with oldLive | ⟨low, high⟩
    · exact faithful.starts_old wellFormed copied.growth oldLive
    · rcases Nat.eq_or_lt_of_le low with rfl | later
      · obtain ⟨w, isFirst⟩ := faithful.starts live
        exact ⟨w, (copied.firstVertex?_copy wellFormed after within).trans isFirst⟩
      · obtain ⟨t, edge, stands⟩ := exists_of_mem_right copied.successors_copy
          (copied.fresh_edge later high)
        have tWithin := wellFormed.consistent.inRange v t edge
        have tReal : t ≠ terminator := by
          cases stands with
          | same _ => omega
          | jump isJump _ _ =>
              have := wellFormed.two_le_of_isJump (isJump_iff.mpr ⟨_, _, isJump⟩)
              simp only [terminator]
              omega
        obtain ⟨w, isFirst⟩ := faithful.starts ((wellFormed.ends edge).2.resolve_left tReal)
        exact ⟨w, (copied.firstVertex?_stands wellFormed after tWithin stands).trans isFirst⟩
  · rcases (copied.live_iff u).mp isLive with oldLive | ⟨low, high⟩
    · have oldWithin := Digraph.lt_size_of_isLive oldLive
      exact copied.growth.ending wellFormed.nested oldWithin
        (copied.redirected_old wellFormed after live oldWithin) (faithful.ending oldLive)
    · rcases Nat.eq_or_lt_of_le low with rfl | later
      · exact (faithful.ending live).transfer
          (copied.branchingVertex?_copy wellFormed after within)
          (copied.branchCond?_copy wellFormed after within)
          (copied.redirected_copy wellFormed after)
      · obtain ⟨_, place, _, _, isCopy⟩ := copied.table_fresh later high
        exact ending_jump after (isJump_iff.mpr ⟨_, _, isCopy⟩)

theorem Severed.keeps_faithful {source target : Nat} (after : changed.WellFormed)
    (targetLive : graph.isLive target = true)
    (severed : Severed graph source target changed) : Faithful config targets changed := by
  have targetWithin := Digraph.lt_size_of_isLive targetLive
  refine ⟨fun {u} isLive => ?_, fun {u} isLive => ?_⟩
  · rcases (severed.live_iff u).mp isLive with rfl | oldLive
    · obtain ⟨w, isFirst⟩ := faithful.starts targetLive
      exact ⟨w, (severed.firstVertex?_jump wellFormed after targetWithin).trans isFirst⟩
    · exact faithful.starts_old wellFormed severed.growth oldLive
  · rcases (severed.live_iff u).mp isLive with rfl | oldLive
    · exact ending_jump after (severed.isJump_iff_old.mpr (.inl rfl))
    · exact severed.growth.ending wellFormed.nested (Digraph.lt_size_of_isLive oldLive)
        (severed.redirected_old wellFormed after targetLive) (faithful.ending oldLive)

end Effects

end RegionGraph

/-- A legal step keeps region graphs faithful. -/
theorem State.Legal.keeps_faithful {config : Config} {targets : Nat → List Nat} {state : State}
    {action : Action} (wellFormed : state.graph.WellFormed)
    (faithful : RegionGraph.Faithful config targets state.graph)
    (legal : Legal config state action) :
    RegionGraph.Faithful config targets (state.perform action).1.graph := by
  have after := legal.keeps_wellFormed wellFormed
  cases legal with
  | @prune regions someStray strayIff =>
      refine (RegionGraph.pruned_isolateAll wellFormed.consistent regions).keeps_faithful
        wellFormed faithful fun {u t} live kept edge stray => ?_
      have reached : state.graph.Reaches .forward root u := by
        by_contra unreached
        exact kept ((strayIff u).mpr ⟨live, unreached⟩)
      exact ((strayIff t).mp stray).2 (reached.edge edge)
  | collapse all live found =>
      exact (RegionGraph.collapsed_collapse wellFormed
        (found.fits wellFormed live)).keeps_faithful wellFormed faithful live found
  | duplicate all few live entering =>
      exact (RegionGraph.copied_giveCopy wellFormed.consistent (Digraph.lt_size_of_isLive live)
        entering).keeps_faithful wellFormed faithful after live
  | @cut source target other reason all live edge different entering ahead =>
      exact (RegionGraph.severed_redirect wellFormed.consistent source target).keeps_faithful
        wellFormed faithful after (wellFormed.isLive_of_mem_exits edge)

end FlowRegions
