import FlowRegions.Proofs.Structuring.Initial

/-!
Contract: what the acceptance of a graph establishes, and what it does not.

An accepted graph has one vertex that its root leads to, and no vertex that both
branches and returns or branches to the root.  Nothing is asked of the ends of an
edge: the root may lead back to itself, and edges may lead to detached vertices,
since vertices can be linked after they are detached.  Detached vertices are
detached in turn, by ascending index, and lose the edges they have by then; edges
that come later are kept.

Owns:
- `RegionGraph.Established`, what a run relies on: the root has one edge, to a live
  region; no edge enters the root; edges join regions that are not detached; and live
  regions have the edges of the input;
- that an accepted graph comes to a region graph that establishes it exactly if the
  edges of its root and of its live vertices lead to live vertices or the terminator.
-/

namespace FlowRegions.RegionGraph

open FlowRegions.Digraph (root terminator)

variable {α : Type} {config : Config} {input : Digraph α} {graph : RegionGraph} {entry : Nat}

structure Established (input : Digraph α) (graph : RegionGraph) : Prop where
  entry : ∃ e, graph.successors root = [e] ∧ graph.isLive e = true
  unentered : ∀ u, root ∉ graph.successors u
  attached : ∀ {u v}, v ∈ graph.successors u →
    graph.isDetached u = false ∧ graph.isDetached v = false
  edges : ∀ v, input.isLive v = true → graph.successors v = input.successors v

/-- The one vertex that the root leads to. -/
theorem mem_successors_root (entries : (input.successors root).eraseDups = [entry]) {t : Nat} :
    t ∈ input.successors root ↔ t = entry := by
  rw [← List.mem_eraseDups, entries, List.mem_singleton]

namespace Adopted

variable (consistent : input.Consistent) (entries : (input.successors root).eraseDups = [entry])
  (adopted : Adopted input entry input.size graph)
include consistent adopted

/-- The live regions are the live vertices of the input. -/
theorem isLive_eq (v : Nat) : graph.isLive v = input.isLive v := by
  rw [Bool.eq_iff_iff, adopted.live_iff, Digraph.isLive_iff, consistent.payloads, and_assoc]
  refine and_congr_right fun _ => and_congr_right fun within => ?_
  simp [within]

theorem not_isDetached_of_isLive {v : Nat} (live : input.isLive v = true) :
    graph.isDetached v = false :=
  ((Digraph.isLive_iff graph v).mp (by rw [adopted.isLive_eq consistent, live])).2

/-- No live vertex branches to the root. -/
theorem root_notMem {v : Nat} (live : input.isLive v = true) : root ∉ input.successors v :=
  (adopted.accepted (consistent.two_le_of_isLive live) (Digraph.lt_size_of_isLive live)
    ((Digraph.isLive_iff input v).mp live).2).1

include entries

/-- The edges of the root and of the live vertices, those left out that lead to a
detached vertex with a greater index. -/
theorem successors_eq_filter (v : Nat) :
    graph.successors v =
      (if v = root then (input.successors root).eraseDups
        else if input.isLive v then input.successors v else []).filter
          fun t => decide (t ≤ v) || !input.isDetached t := by
  have chosen : (if v = root then [entry]
        else if 2 ≤ v ∧ v < input.size ∧ input.isDetached v = false then input.successors v
        else []) =
      if v = root then (input.successors root).eraseDups
        else if input.isLive v then input.successors v else [] := by
    rw [entries]
    refine if_congr Iff.rfl rfl (if_congr ?_ rfl rfl)
    rw [Digraph.isLive_iff, consistent.payloads, and_assoc]
  rw [adopted.successors_eq, chosen]
  refine List.filter_congr fun t edge => ?_
  have within : t < input.size := by
    split at edge
    · exact consistent.inRange root t (List.mem_eraseDups.mp edge)
    · split at edge
      · exact consistent.inRange v t edge
      · cases edge
  rw [survives, decide_eq_true within, Bool.and_true, Bool.not_and, ← decide_not]
  simp only [Nat.not_lt]

/-- An edge of the region graph is the one of the root or that of a live vertex. -/
theorem edge_cases {u t : Nat} (edge : t ∈ graph.successors u) :
    (u = root ∧ t = entry) ∨ (input.isLive u = true ∧ t ∈ input.successors u) := by
  rw [adopted.successors_eq_filter consistent entries, List.mem_filter] at edge
  split_ifs at edge with isRoot live
  · rw [entries, List.mem_singleton] at edge
    exact .inl ⟨isRoot, edge.1⟩
  · exact .inr ⟨live, edge.1⟩
  · cases edge.1

/-- What a run relies on holds only if edges end at live vertices. -/
theorem live_of_established (established : Established input graph) :
    (∀ t ∈ input.successors root, input.isLive t = true) ∧
      ∀ v, input.isLive v = true → ∀ t ∈ input.successors v,
        t = terminator ∨ input.isLive t = true := by
  have sameLive := adopted.isLive_eq consistent
  refine ⟨fun t edge => ?_, fun v live t edge => ?_⟩
  · obtain ⟨e, single, live⟩ := established.entry
    have survived : e ∈ graph.successors root := by
      rw [single]
      exact List.mem_singleton_self e
    rw [(mem_successors_root entries).mp edge, ← sameLive]
    rcases adopted.edge_cases consistent entries survived with ⟨_, isEntry⟩ | ⟨rootLive, _⟩
    · exact isEntry ▸ live
    · exact absurd (consistent.two_le_of_isLive rootLive) (by decide)
  · by_cases isEnd : t = terminator
    · exact .inl isEnd
    refine .inr ?_
    have notRoot : t ≠ root := by
      rintro rfl
      exact adopted.root_notMem consistent live edge
    have attached := (established.attached (established.edges v live ▸ edge)).2
    rw [← sameLive]
    refine adopted.consistent.isLive_of_not_isDetached ?_ ?_ attached
    · simp only [root, terminator] at notRoot isEnd
      omega
    · rw [adopted.size_eq]
      exact consistent.inRange v t edge

/-- When edges end at live vertices, no edge is lost and none leads to a detached
region. -/
theorem established (fromRoot : ∀ t ∈ input.successors root, input.isLive t = true)
    (fromLive : ∀ v, input.isLive v = true → ∀ t ∈ input.successors v,
      t = terminator ∨ input.isLive t = true) : Established input graph := by
  have edges := adopted.successors_eq_filter consistent entries
  have entryLive : input.isLive entry = true :=
    fromRoot entry ((mem_successors_root entries).mpr rfl)
  have attached {t : Nat} (live : input.isLive t = true) : input.isDetached t = false :=
    ((Digraph.isLive_iff input t).mp live).2
  refine
    { entry := ⟨entry, ?_, by rw [adopted.isLive_eq consistent, entryLive]⟩
      unentered := fun u edge => ?_
      attached := fun {u t} edge => ?_
      edges := fun v live => ?_ }
  · rw [edges, if_pos rfl, entries]
    simp [attached entryLive]
  · rcases adopted.edge_cases consistent entries edge with ⟨_, isEntry⟩ | ⟨live, edge⟩
    · have real := consistent.two_le_of_isLive entryLive
      rw [← isEntry] at real
      exact absurd real (by decide)
    · exact adopted.root_notMem consistent live edge
  · rcases adopted.edge_cases consistent entries edge with ⟨rfl, rfl⟩ | ⟨live, edge⟩
    · exact ⟨adopted.synthetic root (by decide),
        adopted.not_isDetached_of_isLive consistent entryLive⟩
    · refine ⟨adopted.not_isDetached_of_isLive consistent live, ?_⟩
      rcases fromLive u live t edge with rfl | tLive
      · exact adopted.synthetic terminator (by decide)
      · exact adopted.not_isDetached_of_isLive consistent tLive
  · have real := consistent.two_le_of_isLive live
    have notRoot : v ≠ root := by
      rintro rfl
      exact absurd real (by decide)
    rw [edges, if_neg notRoot, if_pos live]
    refine List.filter_eq_self.mpr fun t edge => ?_
    rcases fromLive v live t edge with rfl | tLive
    · have below : terminator ≤ v := Nat.le_of_succ_le real
      rw [decide_eq_true below, Bool.true_or]
    · rw [attached tLive, Bool.not_false, Bool.or_true]

end Adopted

end FlowRegions.RegionGraph

namespace FlowRegions.Structuring

open FlowRegions.Digraph (root terminator)

variable {α : Type} {config : Config} {input : Digraph α} {structuring : Structuring}

/-- What an accepted graph comes to: its live vertices, with the edges that do not
lead to a detached vertex with a greater index.  It is what a run relies on exactly if
the root leads to a live vertex and live vertices to live ones and the terminator. -/
theorem ofGraph_established_iff (built : input.Built)
    (accepted : Structuring.ofGraph config input = .ok structuring) :
    structuring.state.graph.size = input.size ∧
    (∀ v, structuring.state.graph.isLive v = input.isLive v) ∧
    (∀ v, structuring.state.graph.successors v =
      (if v = root then (input.successors root).eraseDups
        else if input.isLive v then input.successors v else []).filter
          fun t => decide (t ≤ v) || !input.isDetached t) ∧
    (RegionGraph.Established input structuring.state.graph ↔
      (∀ t ∈ input.successors root, input.isLive t = true) ∧
      ∀ v, input.isLive v = true → ∀ t ∈ input.successors v,
        t = terminator ∨ input.isLive t = true) := by
  have consistent := built.consistent
  obtain ⟨graph, made, rfl⟩ := exists_graph_of_ofGraph accepted
  obtain ⟨entry, entries, _, adopted⟩ := RegionGraph.adopted_of_ofInput consistent made
  refine ⟨adopted.size_eq, adopted.isLive_eq consistent,
    adopted.successors_eq_filter consistent entries, ?_⟩
  constructor
  · exact adopted.live_of_established consistent entries
  · rintro ⟨fromRoot, fromLive⟩
    exact adopted.established consistent entries fromRoot fromLive

/-- A graph whose vertex 3 is linked to after it is detached. -/
def linkedLate : Digraph Unit :=
  (((Digraph.ofEdges 3 [(0, 2), (2, 4)]).isolate 3).addEdge 2 3).addEdge 4 3

/-- The edge that leads to the detached vertex from above is kept, the one from below is
not, and the run has not what it relies on. -/
theorem ofGraph_established_iff_linkedLate : ∃ structuring : Structuring,
    Structuring.ofGraph {} linkedLate = .ok structuring ∧
    structuring.state.graph.isDetached 3 = true ∧
    structuring.state.graph.successors 2 = [4] ∧ structuring.state.graph.successors 4 = [3] ∧
    ¬ RegionGraph.Established linkedLate structuring.state.graph := by
  have linked : (Digraph.ofEdges 3 [(0, 2), (2, 4)]).Built := Digraph.built_ofEdges (by decide)
  have built : linkedLate.Built :=
    .edit (.edit (.edit linked (.detach 3) rfl) (.link 2 3) rfl) (.link 4 3) rfl
  obtain ⟨structuring, accepted⟩ :
      ∃ structuring, Structuring.ofGraph {} linkedLate = .ok structuring := ⟨_, rfl⟩
  obtain ⟨_, _, edges, established⟩ := ofGraph_established_iff built accepted
  refine ⟨structuring, accepted, ?_, ?_, ?_, fun holds => ?_⟩
  · cases accepted
    decide +kernel
  · rw [edges]
    decide +kernel
  · rw [edges]
    decide +kernel
  · have toLive := (established.mp holds).2 4 (by decide +kernel) 3 (by decide +kernel)
    revert toLive
    decide +kernel

end FlowRegions.Structuring
