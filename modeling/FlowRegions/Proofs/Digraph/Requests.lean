import FlowRegions.Proofs.Digraph.Calls
import FlowRegions.Proofs.Digraph.Marks

/-!
Contract: sequences of checked requests that are all granted.

A request names vertices by arbitrary integers and is refused when one of them names no
vertex.  A sequence of requests stops at the first refusal.

Owns:
- `Digraph.requestAll`, and that what it leaves is built;
- that links, retargets and detachments whose indices are within the graph are granted,
  and do what the primitive edits do.
-/

namespace FlowRegions.Digraph

variable {α : Type} {graph changed : Digraph α}

def Request.link (source target : Nat) : Request α :=
  .edit (.link source target)

def Request.retarget (source old new : Nat) : Request α :=
  .edit (.retarget source old new)

def Request.detach (vertex : Nat) : Request α :=
  .edit (.detach vertex)

def request (graph : Digraph α) : Request α → Except EditError (Digraph α)
  | .addVertex payload => .ok (graph.addVertex payload)
  | .edit edit => graph.edit edit
  | .clone => .ok graph

/-- Answers requests up to the first that is refused. -/
def requestAll (graph : Digraph α) (requests : List (Request α)) :
    Except EditError (Digraph α) :=
  requests.foldlM request graph

theorem requestAll_append {requests : List (Request α)}
    (granted : graph.requestAll requests = .ok changed) (later : List (Request α)) :
    graph.requestAll (requests ++ later) = changed.requestAll later := by
  rw [requestAll, List.foldlM_append]
  change (graph.requestAll requests >>= fun graph => graph.requestAll later) = _
  rw [granted]
  rfl

theorem requestAll_cons {first : Request α} (granted : graph.request first = .ok changed)
    (later : List (Request α)) :
    graph.requestAll (first :: later) = changed.requestAll later := by
  rw [requestAll, List.foldlM_cons, granted]
  rfl

/-- Requests that are granted leave a graph that edits produce. -/
theorem Built.requestAll (built : graph.Built) {requests : List (Request α)}
    (granted : graph.requestAll requests = .ok changed) : changed.Built := by
  induction requests generalizing graph with
  | nil =>
      cases granted
      exact built
  | cons first later inductionHypothesis =>
      cases answer : graph.request first with
      | error error =>
          rw [Digraph.requestAll, List.foldlM_cons, answer] at granted
          cases granted
      | ok next =>
          rw [requestAll_cons answer] at granted
          refine inductionHypothesis ?_ granted
          cases first with
          | addVertex payload =>
              cases answer
              exact built.addVertex payload
          | edit edit => exact built.edit edit answer
          | clone =>
              cases answer
              exact built

/-! ## Edits within the graph -/

theorem request_link {u v : Nat} (uWithin : u < graph.size) (vWithin : v < graph.size) :
    graph.request (.link u v) = .ok (graph.addEdge u v) := by
  simp only [request, Request.link, edit, index?_of_lt uWithin, index?_of_lt vWithin]

theorem request_retarget {u old new : Nat} (uWithin : u < graph.size) (oldWithin : old < graph.size)
    (newWithin : new < graph.size) :
    graph.request (.retarget u old new) = .ok (graph.redirect u old new) := by
  simp only [request, Request.retarget, edit, index?_of_lt uWithin, index?_of_lt oldWithin,
    index?_of_lt newWithin]

theorem request_detach {v : Nat} (within : v < graph.size) :
    graph.request (.detach v) = .ok (graph.isolate v) := by
  simp only [request, Request.detach, edit, index?_of_lt within]

/-- Groups of requests that keep the size are granted one after the other when each does
what a step does in every graph of that size. -/
theorem requestAll_foldlM {ι ε : Type} {items : List ι} {made : ι → List (Request α)}
    {step : Digraph α → ι → Except ε (Digraph α)}
    (granted : ∀ x ∈ items, ∀ before after : Digraph α, before.size = graph.size →
      step before x = .ok after →
      before.requestAll (made x) = .ok after ∧ after.size = graph.size)
    (stepped : items.foldlM step graph = .ok changed) :
    graph.requestAll (items.flatMap made) = .ok changed := by
  have general (before : Digraph α) (sameSize : before.size = graph.size) :
      items.foldlM step before = .ok changed →
        before.requestAll (items.flatMap made) = .ok changed := by
    clear stepped
    induction items generalizing before with
    | nil =>
        intro stepped
        cases stepped
        rfl
    | cons x rest inductionHypothesis =>
        intro stepped
        rw [List.foldlM_cons] at stepped
        cases isNext : step before x with
        | error error =>
            rw [isNext] at stepped
            cases stepped
        | ok next =>
            rw [isNext] at stepped
            obtain ⟨answer, size⟩ := granted x List.mem_cons_self before next sameSize isNext
            rw [List.flatMap_cons, requestAll_append answer]
            exact inductionHypothesis
              (fun y member => granted y (List.mem_cons_of_mem _ member)) next size stepped
  exact general graph rfl stepped

theorem requestAll_flatMap {ι : Type} {items : List ι} {made : ι → List (Request α)}
    {step : Digraph α → ι → Digraph α}
    (granted : ∀ x ∈ items, ∀ before : Digraph α, before.size = graph.size →
      before.requestAll (made x) = .ok (step before x) ∧ (step before x).size = graph.size) :
    graph.requestAll (items.flatMap made) = .ok (items.foldl step graph) := by
  have stepped : items.foldlM (fun graph x => Except.ok (step graph x)) graph =
      (.ok (items.foldl step graph) : Except Empty (Digraph α)) := List.foldlM_pure
  refine requestAll_foldlM ?_ stepped
  rintro x member before _ sameSize ⟨⟩
  exact granted x member before sameSize

theorem requestAll_map {ι : Type} {items : List ι} {made : ι → Request α}
    {step : Digraph α → ι → Digraph α}
    (granted : ∀ x ∈ items, ∀ before : Digraph α, before.size = graph.size →
      before.request (made x) = .ok (step before x) ∧ (step before x).size = graph.size) :
    graph.requestAll (items.map made) = .ok (items.foldl step graph) := by
  rw [List.map_eq_flatMap]
  refine requestAll_flatMap fun x member before sameSize => ?_
  obtain ⟨answer, size⟩ := granted x member before sameSize
  exact ⟨(requestAll_cons answer []).trans rfl, size⟩

theorem requestAll_links {source : Nat} {targets : List Nat} (sourceWithin : source < graph.size)
    (within : ∀ t ∈ targets, t < graph.size) :
    graph.requestAll (targets.map (.link source)) =
      .ok (graph.addEdges source targets) := by
  refine requestAll_map ?_
  intro t member before sameSize
  exact ⟨request_link (sameSize ▸ sourceWithin) (sameSize ▸ within t member),
    (size_addEdge ..).trans sameSize⟩

theorem requestAll_retargets {sources : List Nat} {old new : Nat}
    (within : ∀ p ∈ sources, p < graph.size) (oldWithin : old < graph.size)
    (newWithin : new < graph.size) :
    graph.requestAll (sources.map (.retarget · old new)) =
      .ok (sources.foldl (fun graph p => graph.redirect p old new) graph) := by
  refine requestAll_map ?_
  intro p member before sameSize
  exact ⟨request_retarget (sameSize ▸ within p member) (sameSize ▸ oldWithin)
    (sameSize ▸ newWithin), (size_redirect ..).trans sameSize⟩

theorem requestAll_detachments {vertices : List Nat} (within : ∀ v ∈ vertices, v < graph.size) :
    graph.requestAll (vertices.map .detach) =
      .ok (graph.isolateAll vertices) := by
  refine requestAll_map ?_
  intro v member before sameSize
  exact ⟨request_detach (sameSize ▸ within v member), (size_isolate ..).trans sameSize⟩

theorem requestAll_vertices (payloads : List α) :
    graph.requestAll (payloads.map .addVertex) = .ok (payloads.foldl addVertex graph) := by
  induction payloads generalizing graph with
  | nil => rfl
  | cons payload rest inductionHypothesis => exact inductionHypothesis

end FlowRegions.Digraph
