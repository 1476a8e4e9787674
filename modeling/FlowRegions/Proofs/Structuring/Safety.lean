import FlowRegions.Proofs.Structuring.Acceptance
import FlowRegions.Proofs.Structuring.Endings
import FlowRegions.Proofs.Structuring.Reattachment
import FlowRegions.Proofs.Structuring.Rootless

/-!
Contract: runs from every accepted graph, and the one place where they are unsafe.

A run asks for the region that the root leads to when one live region is left.  The
root of an accepted graph leads to a live region, to itself, or, if its entry was
detached before it was linked, nowhere.  In the first case it does so in every state of
every run, although edges may lead to detached regions: with its regions attached again
the graph is well formed, and steps keep it so.  In the second case nothing is ever done
to the edges of the root.  In the last case a run asks in vain, if it asks at all: it
does when the graph has one live vertex from the start.

Owns:
- `State.Shaped`, the invariant of the first case;
- `RegionGraph.LosesEntry`, the inputs of the last case;
- that graphs stay consistent and tables nested along every run from an accepted graph,
  and exactly when a run finds no entry.
-/

namespace FlowRegions

open FlowRegions.Digraph (root terminator)

/-! ## Roots that lead to a live region -/

namespace State

variable {config : Config} {start state next : State}

def reattach (state : State) : State :=
  { state with graph := state.graph.reattach }

/-- A state whose graph is well formed once its regions are attached again. -/
def Shaped (state : State) : Prop :=
  state.reattach.graph.WellFormed

theorem alike_graph_reattach (state : State) :
    Digraph.Alike state.graph state.reattach.graph :=
  Digraph.alike_reattach state.graph

namespace Shaped

variable (shaped : Shaped state)
include shaped

theorem consistent : state.graph.Consistent :=
  state.alike_graph_reattach.symm.consistent (RegionGraph.WellFormed.consistent shaped)

theorem nested : state.graph.table.Nested :=
  RegionGraph.table_alike state.alike_graph_reattach ▸ RegionGraph.WellFormed.nested shaped

theorem exists_entry : ∃ e, state.graph.entry? = some e := by
  obtain ⟨e, isEntry, _⟩ := RegionGraph.WellFormed.entry?_eq shaped
  rw [RegionGraph.entry?, ← state.alike_graph_reattach.successors_eq] at isEntry
  exact ⟨e, isEntry⟩

/-- What is chosen is lawful when the regions are attached again: the rules do not see the
difference, and what they are tried at is reached. -/
theorem lawful_of_choose {action : Action} (chosen : state.choose config = some action) :
    Lawful config state.reattach action := by
  have alike := state.alike_graph_reattach
  have consistent := shaped.consistent
  have departs {source target : Nat} (departs : Departs state.graph source target) :
      Departs state.reattach.graph source target :=
    ⟨departs.1, RegionGraph.exits_alike alike ▸ departs.2⟩
  cases choice_of_choose chosen with
  | prune someStray =>
      refine .prune (fun r stray => ?_) fun e edge stray => ?_
      · exact Digraph.isLive_reattach_of_isLive ((mem_strays consistent).mp stray).1
      · refine ((mem_strays consistent).mp stray).2 ((Digraph.Reaches.refl root).edge ?_)
        change e ∈ state.graph.successors root
        rw [alike.successors_eq]
        exact edge
  | @collapse v collapse noStray tried found =>
      obtain ⟨reaches, notRoot, notEnd⟩ := (Analysis.mem_postorder consistent).mp tried
      refine .collapse (RegionGraph.WellFormed.isLive_of_reaches shaped
        (alike.reaches_iff.mp reaches) notRoot notEnd) (matches_of_rule shaped ?_)
      rwa [RegionGraph.cyclic?_alike alike, RegionGraph.compound?_alike alike,
        RegionGraph.acyclic?_alike alike] at found
  | @duplicate source target noStray sideways few =>
      refine .duplicate ((departs (departs_sideways consistent sideways)).isLive shaped).2
        fun p member => ?_
      have entering := ((mem_outsiders consistent).mp member).1
      rwa [alike.successors_eq] at entering
  | sideways noStray sideways => exact .cut (departs (departs_sideways consistent sideways))
  | loop noStray tried isLoop found =>
      exact .cut (departs (departs_of_loopCut? consistent tried isLoop found))
  | join noStray found => exact .cut (departs (departs_of_joinEdge? consistent found))

theorem step (steps : Steps config state next) : Shaped next := by
  obtain ⟨_, action, chosen, rfl⟩ := steps
  have after := ((shaped.lawful_of_choose chosen).keeps_wellFormed shaped).reattach
  have alike := alike_perform state.alike_graph_reattach action
  rwa [← alike] at after

end Shaped

theorem Shaped.reached (shaped : Shaped start) (reached : Reached config start state) :
    Shaped state := by
  induction reached with
  | refl => exact shaped
  | tail _ steps inductionHypothesis => exact inductionHypothesis.step steps

end State

/-! ## What a run starts from -/

namespace RegionGraph

variable {α : Type} {config : Config} {input : Digraph α} {graph : RegionGraph} {entry : Nat}

/-- The root leads to a vertex that is detached, and its edge is lost. -/
def LosesEntry (input : Digraph α) : Prop :=
  ∀ t ∈ input.successors root, (input.payload? t).isSome = true ∧ input.isDetached t = true

instance (input : Digraph α) : Decidable (LosesEntry input) :=
  inferInstanceAs (Decidable (∀ t ∈ input.successors root,
    (input.payload? t).isSome = true ∧ input.isDetached t = true))

theorem losesEntry_iff (entries : (input.successors root).eraseDups = [entry]) :
    LosesEntry input ↔
      (input.payload? entry).isSome = true ∧ input.isDetached entry = true := by
  simp only [LosesEntry, mem_successors_root entries, forall_eq]

/-- A graph whose root leads to a live vertex is well formed once its regions are attached
again: the ends of its edges are real. -/
theorem Adopted.wellFormed_reattach (consistent : input.Consistent)
    (entries : (input.successors root).eraseDups = [entry])
    (adopted : Adopted input entry input.size graph) (live : input.isLive entry = true) :
    WellFormed graph.reattach := by
  have alike := Digraph.alike_reattach graph
  have isLive {v : Nat} (live : input.isLive v = true) : graph.reattach.isLive v = true :=
    Digraph.isLive_reattach_of_isLive (by rw [adopted.isLive_eq consistent, live])
  have notJump (v : Nat) : isJump graph.reattach v = false := by
    rw [← isJump_alike alike]
    exact not_isJump_of_leaves adopted.table_eq v
  have rootEdges : graph.successors root = [entry] := by
    rw [adopted.successors_eq_filter consistent entries, if_pos rfl, entries]
    simp [((Digraph.isLive_iff input entry).mp live).2]
  refine
    { consistent := alike.consistent adopted.consistent
      entry := ⟨entry, alike.successors_eq ▸ rootEdges, isLive live, notJump entry⟩
      ends := fun {u v} edge => ?_
      nested := table_alike alike ▸ nested_of_leaves adopted.table_eq
      jump_sink := fun {j} isJump => by
        rw [notJump j] at isJump
        cases isJump
      jump_entrant := fun {j} _ _ isJump => by
        rw [notJump j] at isJump
        cases isJump }
  rw [← alike.successors_eq] at edge
  rcases adopted.edge_cases consistent entries edge with ⟨isRoot, rfl⟩ | ⟨uLive, edge⟩
  · exact ⟨.inl isRoot, .inr (isLive live)⟩
  refine ⟨.inr (isLive uLive), ?_⟩
  by_cases isEnd : v = terminator
  · exact .inl isEnd
  have notRoot : v ≠ root := by
    rintro rfl
    exact adopted.root_notMem consistent uLive edge
  refine .inr ?_
  rw [Digraph.isLive_reattach, adopted.consistent.payloads, adopted.size_eq]
  refine ⟨?_, consistent.inRange u v edge⟩
  simp only [root, terminator] at notRoot isEnd
  omega

end RegionGraph

namespace Structuring

variable {α : Type} {config : Config} {input : Digraph α} {structuring : Structuring}

/-- The live regions that a run starts from are the live vertices of the input. -/
theorem liveCount_ofGraph (built : input.Built)
    (accepted : Structuring.ofGraph config input = .ok structuring) :
    structuring.state.graph.liveCount = input.liveCount := by
  obtain ⟨graph, made, rfl⟩ := exists_graph_of_ofGraph accepted
  obtain ⟨_, _, _, adopted⟩ := RegionGraph.adopted_of_ofInput built.consistent made
  rw [Digraph.liveCount_eq, Digraph.liveCount_eq, Digraph.liveIndices, Digraph.liveIndices,
    Digraph.indices, Digraph.indices]
  change ((List.range graph.size).filter graph.isLive).length = _
  rw [adopted.size_eq, funext (adopted.isLive_eq built.consistent)]

/-- A run starts from a graph whose root leads to a live region, to itself, or nowhere,
and the last is so when the entry is detached. -/
theorem start_cases (built : input.Built)
    (accepted : Structuring.ofGraph config input = .ok structuring) :
    structuring.state.graph.table.Nested ∧
      (State.Shaped structuring.state ∧ ¬ RegionGraph.LosesEntry input ∨
        State.Unrooted structuring.state ∧
          (structuring.state.graph.successors root = [] ↔ RegionGraph.LosesEntry input)) := by
  have consistent := built.consistent
  obtain ⟨graph, made, rfl⟩ := exists_graph_of_ofGraph accepted
  obtain ⟨entry, entries, notEnd, adopted⟩ := RegionGraph.adopted_of_ofInput consistent made
  have rootEdges := adopted.successors_eq_filter consistent entries root
  rw [if_pos rfl, entries] at rootEdges
  have loses_iff := RegionGraph.losesEntry_iff entries
  refine ⟨RegionGraph.nested_of_leaves adopted.table_eq, ?_⟩
  by_cases isRoot : entry = root
  · -- A synthetic vertex keeps its edges, also when the input has it detached.
    have around : graph.successors root = [root] := by
      rw [rootEdges, isRoot]
      rfl
    refine .inr ⟨⟨adopted.consistent, fun t edge => ?_⟩, ?_⟩
    · change t ∈ graph.successors root at edge
      rw [around] at edge
      exact List.mem_singleton.mp edge
    · change graph.successors root = [] ↔ _
      rw [around, loses_iff, consistent.payloads, isRoot]
      simp [root]
  have within : entry < input.size := consistent.inRange root entry
    ((RegionGraph.mem_successors_root entries).mpr rfl)
  have real : 2 ≤ entry := by
    simp only [root, terminator] at isRoot notEnd
    omega
  have isReal := (consistent.payloads entry).mpr ⟨real, within⟩
  have above : ¬ entry ≤ root := by
    simp only [root]
    omega
  cases detached : input.isDetached entry with
  | false =>
      refine .inl ⟨adopted.wellFormed_reattach consistent entries
        ((Digraph.isLive_iff input entry).mpr ⟨isReal, detached⟩), fun loses => ?_⟩
      rw [(loses_iff.mp loses).2] at detached
      cases detached
  | true =>
      have none : graph.successors root = [] := by
        rw [rootEdges]
        simp [detached, above]
      refine .inr ⟨⟨adopted.consistent, fun t edge => ?_⟩, ?_⟩
      · change t ∈ graph.successors root at edge
        rw [none] at edge
        cases edge
      · exact iff_of_true none (loses_iff.mpr ⟨isReal, detached⟩)

/-! ## Every state of every run -/

section Reached

variable (built : input.Built) (accepted : Structuring.ofGraph config input = .ok structuring)
  {state : State} (reached : State.Reached config structuring.state state)
include built accepted reached

theorem consistent_of_reached : state.graph.Consistent ∧ state.graph.table.Nested := by
  obtain ⟨nested, ⟨shaped, _⟩ | ⟨unrooted, _⟩⟩ := start_cases built accepted
  · exact ⟨(shaped.reached reached).consistent, (shaped.reached reached).nested⟩
  · exact ⟨(unrooted.reached reached).1.consistent, (unrooted.same reached).2.1 ▸ nested⟩

/-- The root leads nowhere only when the entry is lost from the start. -/
theorem entry?_eq_none_iff : state.graph.entry? = none ↔ RegionGraph.LosesEntry input := by
  obtain ⟨_, ⟨shaped, keeps⟩ | ⟨unrooted, loses_iff⟩⟩ := start_cases built accepted
  · obtain ⟨e, isEntry⟩ := (shaped.reached reached).exists_entry
    rw [isEntry]
    exact iff_of_false nofun keeps
  · rw [RegionGraph.entry?, List.head?_eq_none_iff, (unrooted.same reached).1]
    exact loses_iff

/-- One region is left and the root leads nowhere: this was so from the start. -/
theorem loses_of_rootless (single : state.graph.liveCount = 1)
    (lost : state.graph.entry? = none) :
    RegionGraph.LosesEntry input ∧ input.liveCount = 1 := by
  have loses := (entry?_eq_none_iff built accepted reached).mp lost
  refine ⟨loses, ?_⟩
  obtain ⟨_, ⟨_, keeps⟩ | ⟨unrooted, _⟩⟩ := start_cases built accepted
  · exact absurd loses keeps
  rcases (unrooted.reached reached).2 with rfl | noLive
  · rw [← liveCount_ofGraph built accepted, single]
  · have none : state.graph.liveIndices = [] := by
      rw [List.eq_nil_iff_forall_not_mem]
      intro v member
      rw [Digraph.mem_liveIndices, noLive v] at member
      cases member
    rw [Digraph.liveCount_eq, none] at single
    cases single

end Reached

/-- Runs from an accepted graph, any number of them one after the other.  In every state
they pass through edges stay within the graph, regions refer to earlier ones, and every
region but a leaf or a jump has parts; and the root leads to a region when it is asked for
one, unless the graph has a single live vertex and its root leads to a detached one.  A run
fails for want of an entry exactly then, and else returns a tree or reports that it makes
no progress. -/
theorem run_rootless_iff (built : input.Built)
    (accepted : Structuring.ofGraph config input = .ok structuring) :
    (∀ state, State.Reached config structuring.state state →
      state.graph.Consistent ∧ state.graph.table.Nested ∧
      (∀ v node, state.graph.table v = some node → node.children = [] →
        node.kind = .leaf ∨ node.kind = .jump) ∧
      (state.graph.liveCount = 1 → state.graph.entry? = none →
        RegionGraph.LosesEntry input ∧ input.liveCount = 1)) ∧
    ∀ count, State.Reached config structuring.state (structuring.afterRuns count).state ∧
      ((structuring.afterRuns count).run.2.2 = .error .rootless ↔
        RegionGraph.LosesEntry input ∧ input.liveCount = 1) := by
  obtain ⟨graph, _, isStart⟩ := exists_graph_of_ofGraph accepted
  have sameConfig : structuring.config = config := by rw [isStart]
  refine ⟨fun state reached => ?_, fun count => ?_⟩
  · obtain ⟨consistent, nested⟩ := consistent_of_reached built accepted reached
    exact ⟨consistent, nested, fun v node => nested.kind_of_children_eq_nil,
      loses_of_rootless built accepted reached⟩
  obtain ⟨laterConfig, reached⟩ := structuring.reached_afterRuns count
  rw [sameConfig] at laterConfig reached
  refine ⟨reached, fun rootless => ?_, ?_⟩
  · obtain ⟨single, lost⟩ := State.finish?_eq_rootless.mp (finish?_of_run_rootless rootless)
    have onward := (reached_run (structuring.afterRuns count)).2
    rw [laterConfig] at onward
    exact loses_of_rootless built accepted (reached.trans onward) single lost
  · rintro ⟨loses, single⟩
    have failed : structuring.state.finish? = some (.error .rootless) :=
      State.finish?_eq_rootless.mpr
        ⟨(liveCount_ofGraph built accepted).trans single,
          (entry?_eq_none_iff built accepted .refl).mpr loses⟩
    obtain ⟨result, same⟩ := afterRuns_of_failed (by rw [isStart]) failed count
    rw [same, result]

def lostEntry : Digraph Unit :=
  ((Digraph.ofEdges 2 [(0, 2)]).isolate 2).addEdge 0 2

/-- It is accepted, and its runs find no entry. -/
theorem run_rootless_iff_lostEntry : ∃ structuring : Structuring,
    Structuring.ofGraph {} lostEntry = .ok structuring ∧
    ∀ count, (structuring.afterRuns count).run.2.2 = .error .rootless := by
  have linked : (Digraph.ofEdges 2 [(0, 2)]).Built := Digraph.built_ofEdges (by decide)
  have built : lostEntry.Built := .edit (.edit linked (.detach 2) rfl) (.link 0 2) rfl
  obtain ⟨structuring, accepted⟩ :
      ∃ structuring, Structuring.ofGraph {} lostEntry = .ok structuring := ⟨_, rfl⟩
  refine ⟨structuring, accepted, fun count => ?_⟩
  exact ((run_rootless_iff built accepted).2 count).2.mpr
    ⟨by decide +kernel, by decide +kernel⟩

end Structuring

end FlowRegions
