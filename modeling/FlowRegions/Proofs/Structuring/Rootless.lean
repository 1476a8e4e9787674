import FlowRegions.Proofs.Structuring.Progress

/-!
Contract: runs from a graph whose root leads nowhere, or only to itself.

Such graphs are accepted, but no region of them is reached.  The first step of a
run detaches every region, and then there is nothing left to do: no rule is ever
applied, and no state but the first has a live region.

Owns:
- `State.Unrooted`, with its step and run lemmas, and `State.Rootless`, the case of a
  root that leads to itself;
- `Structuring.cases_ofGraph`: a run from an accepted graph is rootless, or its
  graph is sound.
-/

namespace FlowRegions

open FlowRegions.Digraph (root terminator)

namespace State

variable {config : Config} {start state next : State}

structure Unrooted (state : State) : Prop where
  consistent : state.graph.Consistent
  nowhere : ∀ t ∈ state.graph.successors root, t = root

structure Rootless (state : State) : Prop extends Unrooted state where
  around : state.graph.successors root = [root]

namespace Unrooted

variable (unrooted : Unrooted state)
include unrooted

theorem eq_root_of_reaches {v : Nat} (reaches : state.graph.Reaches .forward root v) :
    v = root := by
  rw [Digraph.reaches_iff] at reaches
  induction reaches with
  | refl => rfl
  | @tail u v before edge inductionHypothesis =>
      change v ∈ state.graph.successors u at edge
      rw [inductionHypothesis] at edge
      exact unrooted.nowhere v edge

theorem mem_strays_iff {r : Nat} :
    r ∈ state.strays (Analysis.ofGraph state.graph) ↔ state.graph.isLive r = true := by
  rw [mem_strays unrooted.consistent]
  refine and_iff_left_of_imp fun live reaches => ?_
  have real := unrooted.consistent.two_le_of_isLive live
  rw [unrooted.eq_root_of_reaches reaches] at real
  exact absurd real (by decide)

theorem postorder_eq_nil : (Analysis.ofGraph state.graph).postorder = [] := by
  rw [List.eq_nil_iff_forall_not_mem]
  intro v member
  obtain ⟨reaches, notRoot, _⟩ := (Analysis.mem_postorder unrooted.consistent).mp member
  exact notRoot (unrooted.eq_root_of_reaches reaches)

/-- No rule finds anything to do. -/
theorem prunes_of_choose {action : Action} (chosen : state.choose config = some action) :
    action = .prune (state.strays (Analysis.ofGraph state.graph)) := by
  have untried {v : Nat} : v ∉ (Analysis.ofGraph state.graph).postorder := by
    rw [unrooted.postorder_eq_nil]
    exact List.not_mem_nil
  cases choice_of_choose chosen with
  | prune => rfl
  | collapse _ tried => exact absurd tried untried
  | duplicate _ sideways => exact absurd (sidewaysEdge?_eq_some sideways).1 untried
  | sideways _ sideways => exact absurd (sidewaysEdge?_eq_some sideways).1 untried
  | loop _ tried => exact absurd tried untried
  | join _ found => exact absurd (joinEdge?_eq_some found).1 untried

/-- A step detaches every region and nothing else. -/
theorem step (steps : Steps config state next) :
    Unrooted next ∧ (∀ v, next.graph.isLive v = false) ∧
      next.graph.successors root = state.graph.successors root ∧
      next.graph.table = state.graph.table ∧ next.duplicated = state.duplicated := by
  obtain ⟨_, action, chosen, rfl⟩ := steps
  rw [unrooted.prunes_of_choose chosen]
  have pruned := RegionGraph.pruned_isolateAll unrooted.consistent
    (state.strays (Analysis.ofGraph state.graph))
  have rootStays : root ∉ state.strays (Analysis.ofGraph state.graph) := by
    intro isStray
    have real := unrooted.consistent.two_le_of_isLive (unrooted.mem_strays_iff.mp isStray)
    exact absurd real (by decide)
  have rootEdges : (state.graph.isolateAll
      (state.strays (Analysis.ofGraph state.graph))).successors root =
      state.graph.successors root := by
    rw [pruned.successors_eq, if_neg rootStays]
    refine List.filter_eq_self.mpr fun t edge => ?_
    rw [unrooted.nowhere t edge]
    exact decide_eq_true rootStays
  refine ⟨⟨pruned.consistent, fun t edge => ?_⟩, fun v => ?_, rootEdges, funext pruned.table_eq,
    rfl⟩
  · exact unrooted.nowhere t (rootEdges ▸ edge)
  · rw [← Bool.not_eq_true]
    intro live
    obtain ⟨wasLive, kept⟩ := (pruned.live_iff v).mp live
    exact kept (unrooted.mem_strays_iff.mpr wasLive)

end Unrooted

/-- Every state of the run is unrooted, and only the first has live regions. -/
theorem Unrooted.reached (unrooted : Unrooted start) (reached : Reached config start state) :
    Unrooted state ∧ (state = start ∨ ∀ v, state.graph.isLive v = false) := by
  induction reached with
  | refl => exact ⟨unrooted, .inl rfl⟩
  | @tail state next before steps inductionHypothesis =>
      obtain ⟨after, none, _⟩ := inductionHypothesis.1.step steps
      exact ⟨after, .inr none⟩

/-- An unrooted run touches neither the edges of the root nor the table, and copies
nothing. -/
theorem Unrooted.same (unrooted : Unrooted start) (reached : Reached config start state) :
    state.graph.successors root = start.graph.successors root ∧
      state.graph.table = start.graph.table ∧ state.duplicated = start.duplicated := by
  induction reached with
  | refl => exact ⟨rfl, rfl, rfl⟩
  | @tail state next before steps inductionHypothesis =>
      obtain ⟨_, _, edges, table, copies⟩ := (unrooted.reached before).1.step steps
      exact ⟨edges.trans inductionHypothesis.1, table.trans inductionHypothesis.2.1,
        copies.trans inductionHypothesis.2.2⟩

theorem Rootless.reached (rootless : Rootless start) (reached : Reached config start state) :
    Rootless state ∧ (state = start ∨ ∀ v, state.graph.isLive v = false) := by
  obtain ⟨after, live⟩ := rootless.toUnrooted.reached reached
  exact ⟨⟨after, (rootless.same reached).1.trans rootless.around⟩, live⟩

/-- A rootless run does not touch the table, and copies nothing. -/
theorem Rootless.table_eq (rootless : Rootless start) (reached : Reached config start state) :
    state.graph.table = start.graph.table ∧ state.duplicated = start.duplicated :=
  (rootless.same reached).2

end State

/-- A graph is accepted when its root leads to a real vertex, or to itself. -/
theorem Structuring.cases_ofGraph {α : Type} {config : Config} {input : Digraph α}
    {structuring : Structuring} (joined : RegionGraph.Joined input)
    (accepted : Structuring.ofGraph config input = .ok structuring) :
    RegionGraph.Sound input ∨ State.Rootless structuring.state ∧
      ∃ entry, RegionGraph.Taken input entry input.size structuring.state.graph := by
  obtain ⟨graph, made, rfl⟩ := exists_graph_of_ofGraph accepted
  obtain ⟨entry, entries, notEnd, taken⟩ := RegionGraph.taken_of_ofInput joined made
  by_cases isRoot : entry = root
  · have around : graph.successors root = [root] := by
      rw [taken.successors_eq, if_pos rfl, isRoot]
    refine .inr ⟨⟨⟨taken.consistent, fun t edge => ?_⟩, around⟩, entry, taken⟩
    change t ∈ graph.successors root at edge
    rw [around] at edge
    exact List.mem_singleton.mp edge
  · refine .inl ⟨joined.consistent, joined.attached, fun v edge => ?_⟩
    have same : v = entry := by
      have member := List.mem_eraseDups.mpr edge
      rw [entries] at member
      exact List.mem_singleton.mp member
    simp only [root, terminator] at isRoot notEnd
    omega

end FlowRegions
