import FlowRegions.Proofs.Structuring.Choices
import FlowRegions.Proofs.Structuring.Weight

/-!
Contract: what one legal step keeps.

Owns:
- `State.Lawful`, what keeping region graphs well formed depends on, and that every
  lawful step keeps them so.

For every legal action it owns:
- that it is lawful, so that region graphs stay well formed;
- that behind a step every live region is reached from the root;
- that the weight falls, unless the step is a duplication or an idle collapse.
-/

namespace FlowRegions

open FlowRegions.Digraph (root terminator)

namespace RegionGraph

variable {graph changed : RegionGraph}

/-! ## Reached regions stay reached -/

/-- What the root reaches is reached in a changed graph when its edges are
followed there. -/
theorem reaches_of_follows
    (follows : ∀ {x y}, graph.Reaches .forward root x → changed.Reaches .forward root x →
      y ∈ graph.successors x → changed.Reaches .forward root y)
    {v : Nat} (reaches : graph.Reaches .forward root v) : changed.Reaches .forward root v := by
  rw [Digraph.reaches_iff] at reaches
  induction reaches with
  | refl => exact .refl root
  | tail before edge inductionHypothesis =>
      exact follows (Digraph.reaches_iff.mpr before) inductionHypothesis edge

/-- A walk from the root in the graph before a collapse is a walk behind it, to
the new vertex if it ends at a member. -/
theorem Collapsed.reached_cases {collapse : Collapse} {new x : Nat}
    (wellFormed : graph.WellFormed) (fits : graph.Fits collapse)
    (collapsed : Collapsed graph collapse new changed) (reaches : graph.Reaches .forward root x) :
    x = terminator ∨ (x ∈ collapse.members ∧ changed.Reaches .forward root new) ∨
      (x ∉ collapse.members ∧ changed.Reaches .forward root x) := by
  rw [Digraph.reaches_iff] at reaches
  induction reaches with
  | refl => exact .inr (.inr ⟨fits.root_notMem wellFormed, .refl root⟩)
  | @tail x y _ edge inductionHypothesis =>
      change y ∈ graph.successors x at edge
      by_cases isEnd : y = terminator
      · exact .inl isEnd
      refine .inr ?_
      have notEntry (outside : y ∉ collapse.members) : y ≠ collapse.entry := by
        rintro rfl
        exact outside fits.entry_mem
      rcases inductionHypothesis with rfl | ⟨member, newReached⟩ | ⟨outside, reached⟩
      · rw [wellFormed.successors_terminator] at edge
        cases edge
      · by_cases yMember : y ∈ collapse.members
        · exact .inl ⟨yMember, newReached⟩
        · refine .inr ⟨yMember, newReached.edge ?_⟩
          have isOut :=
            (fits.covers x member y (mem_exits.mpr ⟨edge, isEnd⟩)).resolve_left yMember
          change y ∈ changed.successors new
          rw [collapsed.successors_new, mem_collapsedTargets]
          exact .inl ⟨y, isOut, turn_of_ne (notEntry yMember)⟩
      · have notNew : x ≠ new := by
          have := Digraph.lt_size_of_mem_neighbours edge
          have := collapsed.size_le
          omega
        have turned : turn collapse.entry new y ∈ changed.successors x := by
          rw [collapsed.successors_old notNew, if_neg outside]
          exact List.mem_map.mpr ⟨y, edge, rfl⟩
        by_cases yMember : y ∈ collapse.members
        · have isEntry : y = collapse.entry := by
            by_contra other
            exact outside (fits.single yMember other edge)
          rw [isEntry, turn_old] at turned
          exact .inl ⟨yMember, reached.edge turned⟩
        · rw [turn_of_ne (notEntry yMember)] at turned
          exact .inr ⟨yMember, reached.edge turned⟩

theorem Collapsed.allReached {collapse : Collapse} {new : Nat} (wellFormed : graph.WellFormed)
    (fits : graph.Fits collapse) (collapsed : Collapsed graph collapse new changed)
    (all : graph.AllReached) : changed.AllReached := by
  intro v live
  rcases (collapsed.live_iff v).mp live with rfl | ⟨oldLive, outside⟩
  · have entryLive := fits.live _ fits.entry_mem
    rcases collapsed.reached_cases wellFormed fits (all _ entryLive) with
      isEnd | ⟨_, reached⟩ | ⟨outside, _⟩
    · exact absurd isEnd (wellFormed.ne_terminator_of_isLive entryLive)
    · exact reached
    · exact absurd fits.entry_mem outside
  · rcases collapsed.reached_cases wellFormed fits (all v oldLive) with
      isEnd | ⟨member, _⟩ | ⟨_, reached⟩
    · exact absurd isEnd (wellFormed.ne_terminator_of_isLive oldLive)
    · exact absurd member outside
    · exact reached

theorem Severed.allReached {source target other : Nat}
    (severed : Severed graph source target changed)
    (edge : target ∈ graph.successors source) (different : other ≠ source)
    (entering : target ∈ graph.successors other)
    (ahead : Relation.ReflTransGen (graph.EdgePast .forward target) root other)
    (sourceLive : graph.isLive source = true) (all : graph.AllReached) : changed.AllReached := by
  have keeps {x y : Nat} (old : y ∈ graph.successors x) (uncut : x ≠ source ∨ y ≠ target) :
      y ∈ changed.successors x := by
    rw [severed.successors_eq]
    split
    · rename_i isSource
      exact List.mem_map.mpr ⟨y, old, turn_of_ne (uncut.resolve_left fun no => no isSource)⟩
    · exact old
  have otherReached : changed.Reaches .forward root other := by
    rw [Digraph.reaches_iff]
    exact ahead.lift id fun x y step => keeps step.1 (.inr step.2)
  have targetReached : changed.Reaches .forward root target :=
    otherReached.edge (keeps entering (.inl different))
  have stays {v : Nat} (reaches : graph.Reaches .forward root v) :
      changed.Reaches .forward root v := by
    refine reaches_of_follows (fun {x y} _ reached old => ?_) reaches
    by_cases isCut : x = source ∧ y = target
    · rw [isCut.2]
      exact targetReached
    · exact reached.edge (keeps old (by tauto))
  intro v live
  rcases (severed.live_iff v).mp live with rfl | oldLive
  · refine (stays (all source sourceLive)).edge ?_
    change graph.size ∈ changed.successors source
    rw [severed.successors_eq, if_pos rfl]
    exact List.mem_map.mpr ⟨target, edge, turn_old _ _⟩
  · exact stays (all v oldLive)

theorem Pruned.allReached {regions : List Nat} (pruned : Pruned graph regions changed)
    (stray_iff : ∀ r, r ∈ regions ↔ graph.isLive r = true ∧ ¬ graph.Reaches .forward root r) :
    changed.AllReached := by
  have stays {v : Nat} (reaches : graph.Reaches .forward root v) :
      changed.Reaches .forward root v := by
    refine reaches_of_follows (fun {x y} before reached old => reached.edge ?_) reaches
    change y ∈ changed.successors x
    rw [pruned.successors_eq, if_neg fun stray => ((stray_iff x).mp stray).2 before]
    exact List.mem_filter.mpr ⟨old, decide_eq_true fun stray =>
      ((stray_iff y).mp stray).2 (before.edge old)⟩
  intro v live
  obtain ⟨oldLive, kept⟩ := (pruned.live_iff v).mp live
  refine stays (by_contra fun unreached => kept ((stray_iff v).mpr ⟨oldLive, unreached⟩))

section Copied

variable {region : Nat} {outside : List Nat} (copied : Copied graph region outside changed)
include copied

/-- Edges stay but those from outside into the region. -/
theorem Copied.mem_successors_of_uncut {x y : Nat} (edge : y ∈ graph.successors x)
    (uncut : x ∉ outside ∨ y ≠ region) : y ∈ changed.successors x := by
  have within := Digraph.lt_size_of_mem_neighbours edge
  rw [copied.successors_old (Nat.ne_of_lt within)]
  split
  · rename_i isOutside
    exact List.mem_map.mpr ⟨y, edge, turn_of_ne (uncut.resolve_left fun no => no isOutside)⟩
  · exact edge

/-- Walks that do not enter the region stay. -/
theorem Copied.walk_past {x y : Nat}
    (walk : Relation.ReflTransGen (graph.EdgePast .forward region) x y) :
    Relation.ReflTransGen (changed.Edge .forward) x y :=
  walk.lift id fun _ _ step => copied.mem_successors_of_uncut step.1 (.inr step.2)

/-- The copy is reached past the region. -/
theorem Copied.reaches_copy {entrant : Nat} (isOutside : entrant ∈ outside)
    (entering : region ∈ graph.successors entrant)
    (ahead : Relation.ReflTransGen (graph.EdgePast .forward region) root entrant) :
    changed.Reaches .forward root graph.size := by
  have entrantReached : changed.Reaches .forward root entrant :=
    Digraph.reaches_iff.mpr (copied.walk_past ahead)
  refine entrantReached.edge ?_
  change graph.size ∈ changed.successors entrant
  have within := Digraph.lt_size_of_mem_neighbours entering
  rw [copied.successors_old (Nat.ne_of_lt within), if_pos isOutside]
  exact List.mem_map.mpr ⟨region, entering, turn_old _ _⟩

/-- A walk from the region to a region that leads back to it is followed from the
copy. -/
theorem Copied.reaches_of_around {source : Nat} (wellFormed : graph.WellFormed)
    (back : region ∈ graph.successors source) (away : source ≠ region)
    (around : Relation.ReflTransGen (graph.EdgePast .forward region) region source)
    (copyReached : changed.Reaches .forward root graph.size) :
    changed.Reaches .forward root source := by
  rcases around.cases_head with same | ⟨first, step, rest⟩
  · exact absurd same.symm away
  · obtain ⟨next, firstEdge⟩ : ∃ next, next ∈ graph.successors first := by
      rcases rest.cases_head with rfl | ⟨next, edge, _⟩
      · exact ⟨region, back⟩
      · exact ⟨next, edge.1⟩
    have notJump := wellFormed.not_isJump_of_mem firstEdge
    have firstReached : changed.Reaches .forward root first := by
      refine copyReached.edge ?_
      obtain ⟨t, isTarget, stands⟩ := exists_of_mem_right copied.successors_copy.flip step.1
      cases stands with
      | same _ => exact isTarget
      | jump isJump _ _ =>
          rw [isJump_iff.mpr ⟨_, _, isJump⟩] at notJump
          cases notJump
    rw [Digraph.reaches_iff] at firstReached ⊢
    exact firstReached.trans (copied.walk_past rest)

theorem Copied.allReached {source entrant : Nat} (wellFormed : graph.WellFormed)
    (back : region ∈ graph.successors source) (inside : source ∉ outside)
    (away : source ≠ region)
    (around : Relation.ReflTransGen (graph.EdgePast .forward region) region source)
    (isOutside : entrant ∈ outside) (entering : region ∈ graph.successors entrant)
    (ahead : Relation.ReflTransGen (graph.EdgePast .forward region) root entrant)
    (all : graph.AllReached) : changed.AllReached := by
  have copyReached := copied.reaches_copy isOutside entering ahead
  have regionReached : changed.Reaches .forward root region :=
    (copied.reaches_of_around wellFormed back away around copyReached).edge
      (copied.mem_successors_of_uncut back (.inl inside))
  have stays {v : Nat} (reaches : graph.Reaches .forward root v) :
      changed.Reaches .forward root v := by
    refine reaches_of_follows (fun {x y} _ reached edge => ?_) reaches
    by_cases isCut : x ∈ outside ∧ y = region
    · rw [isCut.2]
      exact regionReached
    · exact reached.edge (copied.mem_successors_of_uncut edge (by tauto))
  intro v live
  rcases (copied.live_iff v).mp live with oldLive | ⟨low, high⟩
  · exact stays (all v oldLive)
  · rcases Nat.eq_or_lt_of_le low with rfl | later
    · exact copyReached
    · exact copyReached.edge (copied.fresh_edge later high)

end Copied

end RegionGraph

/-! ## Lawful steps -/

namespace State

/-- What keeping region graphs well formed depends on. -/
inductive Lawful (config : Config) (state : State) : Action → Prop where
  | prune {regions : List Nat} (live : ∀ r ∈ regions, state.graph.isLive r = true)
      (entry_stays : ∀ e ∈ state.graph.successors root, e ∉ regions) :
      Lawful config state (.prune regions)
  | collapse {v : Nat} {collapse : Collapse} (live : state.graph.isLive v = true)
      (found : RegionGraph.Matches config state.labels state.graph v collapse) :
      Lawful config state (.collapse collapse)
  | duplicate {region : Nat} {outside : List Nat} (live : state.graph.isLive region = true)
      (entering : ∀ p ∈ outside, region ∈ state.graph.successors p) :
      Lawful config state (.duplicate region outside)
  | cut {cut : Cut} (departs : Departs state.graph cut.source cut.target) :
      Lawful config state (.cut cut)

variable {config : Config} {state : State} {action : Action}

/-- A lawful step keeps region graphs well formed. -/
theorem Lawful.keeps_wellFormed (wellFormed : state.graph.WellFormed)
    (lawful : Lawful config state action) : (state.perform action).1.graph.WellFormed := by
  cases lawful with
  | prune live entryStays =>
      exact (RegionGraph.pruned_isolateAll wellFormed.consistent _).keeps_wellFormed wellFormed
        live entryStays
  | collapse live found =>
      have fits := found.fits wellFormed live
      exact (RegionGraph.collapsed_collapse wellFormed fits).keeps_wellFormed wellFormed fits
  | duplicate live entering =>
      exact (RegionGraph.copied_giveCopy wellFormed.consistent (Digraph.lt_size_of_isLive live)
        entering).keeps_wellFormed wellFormed live
  | cut departs =>
      obtain ⟨sourceLive, targetLive⟩ := departs.isLive wellFormed
      exact (RegionGraph.severed_redirect wellFormed.consistent _ _).keeps_wellFormed wellFormed
        sourceLive targetLive

theorem Legal.lawful (wellFormed : state.graph.WellFormed) (legal : Legal config state action) :
    Lawful config state action := by
  cases legal with
  | prune someStray strayIff =>
      refine .prune (fun r member => ((strayIff r).mp member).1) fun e edge member => ?_
      exact ((strayIff e).mp member).2 ((Digraph.Reaches.refl root).edge edge)
  | collapse all live found => exact .collapse live found
  | duplicate all few live entering => exact .duplicate live entering
  | cut all live edge => exact .cut ⟨wellFormed.ne_root_of_isLive live, edge⟩

end State

/-! ## Legal steps -/

namespace State.Legal

variable {config : Config} {state : State} {action : Action}
  (wellFormed : state.graph.WellFormed) (legal : Legal config state action)
include wellFormed legal

/-- A legal step keeps region graphs well formed. -/
theorem keeps_wellFormed : (state.perform action).1.graph.WellFormed :=
  (legal.lawful wellFormed).keeps_wellFormed wellFormed

/-- Behind a legal step every live region is reached. -/
theorem allReached : (state.perform action).1.graph.AllReached := by
  cases legal with
  | prune someStray strayIff =>
      exact (RegionGraph.pruned_isolateAll wellFormed.consistent _).allReached strayIff
  | collapse all live found =>
      have fits := found.fits wellFormed live
      exact (RegionGraph.collapsed_collapse wellFormed fits).allReached wellFormed fits all
  | duplicate all few live entering back inside away around isOutside ahead =>
      exact (RegionGraph.copied_giveCopy wellFormed.consistent (Digraph.lt_size_of_isLive live)
        entering).allReached wellFormed back inside away around isOutside
          (entering _ isOutside) ahead all
  | cut all live edge different entering ahead =>
      exact (RegionGraph.severed_redirect wellFormed.consistent _ _).allReached
        (RegionGraph.mem_exits.mp edge).1 different entering ahead live all

/-- A legal step lowers the weight, unless it is a duplication or an idle
collapse. -/
theorem progress :
    (∃ region outside, action = .duplicate region outside) ∨
      ((∀ collapse, action = .collapse collapse → ¬ collapse.IsIdle) ∧
        (state.perform action).1.graph.weight < state.graph.weight) ∨
      ∃ collapse, action = .collapse collapse ∧ collapse.IsIdle ∧
        (state.perform action).1.graph.weight = state.graph.weight := by
  have after := legal.keeps_wellFormed wellFormed
  cases legal with
  | prune someStray strayIff =>
      exact .inr (.inl ⟨(fun _ isCollapse => nomatch isCollapse),
        (RegionGraph.pruned_isolateAll wellFormed.consistent _).weight_lt
          wellFormed after (fun r member => ((strayIff r).mp member).1) someStray⟩)
  | @collapse v collapse all live found =>
      have fits := found.fits wellFormed live
      have balance := (RegionGraph.collapsed_collapse wellFormed fits).weight_eq wellFormed fits
        found.nodup
      have performed : (state.perform (.collapse collapse)).1.graph =
        (state.graph.collapse collapse).2 := rfl
      rw [performed]
      rcases found.lighter wellFormed live with ⟨active, lighter⟩ | ⟨idle, same⟩
      · refine .inr (.inl ⟨?_, by omega⟩)
        rintro _ ⟨⟩
        exact active
      · exact .inr (.inr ⟨collapse, rfl, idle, by omega⟩)
  | @duplicate region source entrant outside =>
      exact .inl ⟨region, outside, rfl⟩
  | @cut source target other reason all live edge different entering ahead =>
      have notJump : state.graph.isJump target = false := by
        cases isJump : state.graph.isJump target with
        | false => rfl
        | true =>
            exact absurd
              (wellFormed.jump_entrant isJump entering (RegionGraph.mem_exits.mp edge).1) different
      exact .inr (.inl ⟨(fun _ isCollapse => nomatch isCollapse),
        (RegionGraph.severed_redirect wellFormed.consistent _ _).weight_lt
          wellFormed live edge notJump⟩)

end State.Legal

end FlowRegions
