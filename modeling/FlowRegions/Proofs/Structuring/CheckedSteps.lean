import FlowRegions.Proofs.Digraph.Requests
import FlowRegions.Proofs.Structuring.Initial
import FlowRegions.Proofs.Structuring.Steps

/-!
Contract: structuring as requests to a graph that checks every index.

Taking over an input and performing a step are sequences of requests: vertices are added,
edges linked and turned, regions detached.  An index that names no vertex would be
refused.  In the states of a run none is, and the requests do what the step does.

Owns:
- `RegionGraph.startRequests`, and that they are granted for an accepted graph;
- `State.requests`, and that they are granted for lawful actions.
-/

namespace FlowRegions

open FlowRegions.Digraph (root terminator Request)

namespace RegionGraph

variable {α : Type} {config : Config} {input : Digraph α} {graph : RegionGraph}

/-! ## Taking over an input -/

/-- What is requested to take over one vertex of an input. -/
def takeOverRequests (entry : Vertex α × Nat) : List (Request Node) :=
  if !entry.1.isReal then []
  else if entry.1.detached then [.detach entry.2]
  else entry.1.successors.map (.link entry.2)

def startRequests (input : Digraph α) : List (Request Node) :=
  (leafNodes input).map .addVertex ++
    ((input.successors root).eraseDups.map (.link root) ++
      input.vertices.toList.zipIdx.flatMap takeOverRequests)

theorem requestAll_takeOver (consistent : input.Consistent) {vertex : Vertex α} {v : Nat}
    (found : input.vertex? v = some vertex) {before after : RegionGraph}
    (sameSize : before.size = input.size) (taken : takeOver before (vertex, v) = .ok after) :
    before.requestAll (takeOverRequests (vertex, v)) = .ok after ∧ after.size = input.size := by
  have within : v < before.size := by
    by_contra beyond
    rw [(Digraph.vertex?_eq_none_iff input v).mpr (by omega)] at found
    cases found
  have isSuccessors : input.successors v = vertex.successors := by
    rw [Digraph.successors, Digraph.neighbours, found]
    rfl
  unfold takeOver at taken
  unfold takeOverRequests
  dsimp only at taken ⊢
  split at taken
  · rename_i synthetic
    cases taken
    rw [if_pos synthetic]
    exact ⟨rfl, sameSize⟩
  rename_i real
  rw [if_neg real]
  split at taken
  · rename_i detached
    cases taken
    rw [if_pos detached]
    exact ⟨Digraph.requestAll_cons (Digraph.request_detach within) [],
      (Digraph.size_isolate ..).trans sameSize⟩
  rename_i attached
  rw [if_neg attached]
  split at taken
  · cases taken
  split at taken
  · cases taken
  cases taken
  refine ⟨Digraph.requestAll_links within fun t edge => ?_,
    (Digraph.size_addEdges ..).trans sameSize⟩
  rw [sameSize]
  exact consistent.inRange v t (isSuccessors ▸ edge)

/-- An accepted graph is taken over without a refusal. -/
theorem requestAll_startRequests (consistent : input.Consistent)
    (accepted : ofInput config input = .ok graph) :
    Digraph.empty.requestAll (startRequests input) = .ok graph := by
  unfold ofInput at accepted
  dsimp only at accepted
  split at accepted
  · cases accepted
  split at accepted
  swap
  · cases accepted
  rename_i entry entries
  split at accepted
  · cases accepted
  have isEntry : entry ∈ input.successors root :=
    List.mem_eraseDups.mp (by rw [entries]; exact List.mem_singleton_self entry)
  have size := (adopted_leaves consistent isEntry).size_eq
  have leavesSize : (leavesOf input).size = input.size := (Digraph.size_addEdge ..).symm.trans size
  have atLeastTwo := consistent.atLeastTwo
  have leaves : Digraph.empty.requestAll ((leafNodes input).map .addVertex) =
      .ok (leavesOf input) := by
    rw [leavesOf_eq]
    exact Digraph.requestAll_vertices _
  rw [startRequests, Digraph.requestAll_append leaves, entries]
  change (leavesOf input).requestAll (.link root entry :: _) = _
  rw [Digraph.requestAll_cons (Digraph.request_link (by rw [leavesSize, root]; omega)
    (leavesSize ▸ consistent.inRange root entry isEntry))]
  refine Digraph.requestAll_foldlM ?_ accepted
  rintro ⟨vertex, v⟩ member before after sameSize taken
  rw [size] at sameSize ⊢
  exact requestAll_takeOver consistent
    (by simpa [Digraph.vertex?] using List.mem_zipIdx_iff_getElem?.mp member) sameSize taken

/-! ## Performing a step -/

def partRequests (graph : RegionGraph) : Option Node → List (Request Node)
  | some part => [.addVertex part, .detach graph.size]
  | none => []

def collapseRequests (graph : RegionGraph) (collapse : Collapse) : List (Request Node) :=
  let based := graph.withPart collapse.part
  let added : RegionGraph := based.addVertex collapse.node
  let outside := (added.entrants collapse.entry).filter fun p => !collapse.members.contains p
  graph.partRequests collapse.part ++ .addVertex collapse.node ::
    (outside.map (.retarget · collapse.entry based.size) ++
      ((collapsedTargets collapse based.size).map (.link based.size) ++
        collapse.members.map .detach))

def linkCopyRequests (copy : Nat) (graph : RegionGraph) (target : Nat) : List (Request Node) :=
  match graph.table target with
  | some { shape := .jump place, .. } =>
    [.addVertex { shape := .jump place }, .link copy graph.size]
  | _ => [.link copy target]

def linkCopiesRequests (copy : Nat) : RegionGraph → List Nat → List (Request Node)
  | _, [] => []
  | graph, target :: rest =>
    linkCopyRequests copy graph target ++
      linkCopiesRequests copy (linkCopy copy graph target) rest

def copyRequests (graph : RegionGraph) (v : Nat) (outside : List Nat) : List (Request Node) :=
  .addVertex { shape := .tail v } ::
    (linkCopiesRequests graph.size (graph.addVertex { shape := .tail v }) (graph.successors v) ++
      outside.map (.retarget · v graph.size))

section Granted

variable {collapse : Collapse} {v copy : Nat} {outside : List Nat}

theorem requestAll_withPart (graph : RegionGraph) (part : Option Node) :
    graph.requestAll (graph.partRequests part) = .ok (graph.withPart part) := by
  cases part with
  | none => rfl
  | some node =>
      refine (Digraph.requestAll_cons rfl _).trans (Digraph.requestAll_cons ?_ [])
      exact Digraph.request_detach (by rw [Digraph.size_addVertex]; omega)

theorem requestAll_collapse (wellFormed : graph.WellFormed) (fits : graph.Fits collapse) :
    graph.requestAll (graph.collapseRequests collapse) = .ok (graph.collapse collapse).2 := by
  have part := partAdded wellFormed.consistent collapse.part
  rw [collapseRequests, collapse_eq, Digraph.requestAll_append (requestAll_withPart graph _)]
  generalize graph.withPart collapse.part = based at part
  have later : graph.size ≤ based.size := by
    rw [part.size_eq]
    omega
  have memberWithin {m : Nat} (member : m ∈ collapse.members) : m < graph.size :=
    Digraph.lt_size_of_isLive (fits.live m member)
  have entryWithin := memberWithin fits.entry_mem
  have addedSize := Digraph.size_addVertex based collapse.node
  rw [redirectOutside, Digraph.requestAll_cons rfl]
  dsimp only
  generalize isOutside : (entrants (based.addVertex collapse.node) collapse.entry).filter
    (fun p => !collapse.members.contains p) = outside
  have outsideWithin : ∀ p ∈ outside, p < (based.addVertex collapse.node).size := by
    intro p member
    rw [← isOutside, List.mem_filter,
      mem_entrants (part.consistent.addVertex collapse.node)] at member
    exact Digraph.lt_size_of_mem_neighbours member.1
  rw [Digraph.requestAll_append
    (Digraph.requestAll_retargets outsideWithin (by omega) (by omega))]
  have redirectedSize := size_foldl_redirect outside collapse.entry based.size
    (based.addVertex collapse.node)
  generalize outside.foldl (fun graph p => graph.redirect p collapse.entry based.size)
    (based.addVertex collapse.node) = redirected at redirectedSize
  rw [Digraph.requestAll_append (Digraph.requestAll_links (by omega) fun t isTarget => ?_)]
  · refine Digraph.requestAll_detachments fun m member => ?_
    have := memberWithin member
    rw [Digraph.size_addEdges]
    omega
  · have := (fits.collapsedTargets_within wellFormed later isTarget).1
    omega

theorem requestAll_linkCopy {target : Nat} (copyWithin : copy < graph.size)
    (within : target < graph.size) :
    graph.requestAll (linkCopyRequests copy graph target) = .ok (linkCopy copy graph target) := by
  have toTarget : graph.requestAll [.link copy target] = .ok (graph.addEdge copy target) :=
    Digraph.requestAll_cons (Digraph.request_link copyWithin within) []
  unfold linkCopyRequests linkCopy
  cases graph.table target with
  | none => exact toTarget
  | some node =>
      obtain ⟨shape, cond⟩ := node
      cases shape with
      | jump place =>
          have size := Digraph.size_addVertex graph { shape := .jump place }
          exact (Digraph.requestAll_cons rfl _).trans
            (Digraph.requestAll_cons (Digraph.request_link (by omega) (by omega)) [])
      | _ => exact toTarget

theorem requestAll_linkCopies (copyWithin : copy < graph.size) {targets : List Nat}
    (within : ∀ t ∈ targets, t < graph.size) :
    graph.requestAll (linkCopiesRequests copy graph targets) =
      .ok (targets.foldl (linkCopy copy) graph) := by
  induction targets generalizing graph with
  | nil => rfl
  | cons target rest inductionHypothesis =>
      have larger := size_le_linkCopy copy graph target
      rw [linkCopiesRequests, Digraph.requestAll_append
        (requestAll_linkCopy copyWithin (within target List.mem_cons_self)), List.foldl_cons]
      exact inductionHypothesis (by omega) fun t member =>
        Nat.lt_of_lt_of_le (within t (List.mem_cons_of_mem _ member)) larger

theorem requestAll_giveCopy (consistent : graph.Consistent) (within : v < graph.size)
    (entering : ∀ p ∈ outside, v ∈ graph.successors p) :
    graph.requestAll (graph.copyRequests v outside) = .ok (graph.giveCopy v outside) := by
  have addedSize := Digraph.size_addVertex graph { shape := .tail v }
  have linkedSize := size_le_linkCopies graph.size (graph.addVertex { shape := .tail v })
    (graph.successors v)
  rw [copyRequests, giveCopy, Digraph.requestAll_cons rfl,
    Digraph.requestAll_append (requestAll_linkCopies (by omega) fun t edge => ?_)]
  · refine Digraph.requestAll_retargets (fun p isOutside => ?_) (by omega) (by omega)
    have := Digraph.lt_size_of_mem_neighbours (entering p isOutside)
    omega
  · have := consistent.inRange v t edge
    omega

end Granted

end RegionGraph

namespace State

variable {config : Config} {state : State} {action : Action}

def requests (state : State) : Action → List (Request Node)
  | .prune regions => regions.map .detach
  | .collapse collapse => state.graph.collapseRequests collapse
  | .duplicate region outside => state.graph.copyRequests region outside
  | .cut cut =>
    [.addVertex { shape := .jump cut.target },
      .retarget cut.source cut.target state.graph.size]

/-- No request of a lawful action is refused. -/
theorem Lawful.requestAll_requests (wellFormed : state.graph.WellFormed)
    (lawful : Lawful config state action) :
    state.graph.requestAll (state.requests action) = .ok (state.perform action).1.graph := by
  cases lawful with
  | prune live entryStays =>
      exact Digraph.requestAll_detachments fun r member => Digraph.lt_size_of_isLive (live r member)
  | collapse live found =>
      exact RegionGraph.requestAll_collapse wellFormed (found.fits wellFormed live)
  | duplicate live entering =>
      exact RegionGraph.requestAll_giveCopy wellFormed.consistent
        (Digraph.lt_size_of_isLive live) entering
  | @cut cut departs =>
      obtain ⟨sourceLive, targetLive⟩ := departs.isLive wellFormed
      have sourceWithin := Digraph.lt_size_of_isLive sourceLive
      have targetWithin := Digraph.lt_size_of_isLive targetLive
      have size := Digraph.size_addVertex state.graph { shape := .jump cut.target }
      exact (Digraph.requestAll_cons rfl _).trans (Digraph.requestAll_cons
        (Digraph.request_retarget (by omega) (by omega) (by omega)) [])

end State

end FlowRegions
