import FlowRegions.Proofs.Digraph.Consistency
import Mathlib.Data.List.Induction

/-!
Contract: what holds of every graph after any sequence of calls, refused ones
among them.

An edit is also given as a program that writes to a graph in place and may fail
on the way.  Its failure keeps what was written before it, so that a refusal
leaves no trace is a theorem about the order of its checks and writes.  Calls are
made on several graphs at once: a copy is one more graph, and later calls may
address it or the graph it was taken from.

Owns:
- `Edit.program`, the edits as programs, and that they perform `Digraph.edit`;
- `Digraph.afterCalls`, the graphs that a sequence of calls leaves.
-/

namespace FlowRegions

/-- A program that writes to a graph.  An error does not undo what was written. -/
abbrev Editing (α : Type) : Type → Type :=
  ExceptT EditError (StateM (Digraph α))

namespace Edit

variable {α : Type}

def vertex (request : Edit) (name : Int) : Editing α Nat := do
  let graph ← get
  match graph.index? name with
  | some v => return v
  | none => throw (.outOfRange request graph.size)

def program : Edit → Editing α Unit
  | .link source target => do
    let u ← vertex (.link source target) source
    let v ← vertex (.link source target) target
    modify (·.addEdge u v)
  | .unlink source target => do
    let u ← vertex (.unlink source target) source
    let v ← vertex (.unlink source target) target
    let found := (← get).hasEdge u v
    modify (·.eraseSuccessor u v)
    if found then modify (·.erasePredecessor u v) else throw (.noSuchEdge source target)
  | .retarget source old new => do
    let u ← vertex (.retarget source old new) source
    let v ← vertex (.retarget source old new) old
    let w ← vertex (.retarget source old new) new
    modify (·.redirect u v w)
  | .detach name => do
    let v ← vertex (.detach name) name
    modify (·.isolate v)

end Edit

/-! ## Running a program -/

namespace Editing

variable {α β γ : Type}

def runOn (program : Editing α β) (graph : Digraph α) : Except EditError β × Digraph α :=
  (program.run.run graph).run

/-! What is written stays, whatever follows. -/

section Steps

variable (graph : Digraph α)

theorem runOn_get_bind (next : Digraph α → Editing α γ) :
    runOn (get >>= next) graph = runOn (next graph) graph :=
  rfl

theorem runOn_modify (change : Digraph α → Digraph α) :
    runOn (modify change) graph = (.ok (), change graph) :=
  rfl

theorem runOn_modify_bind (change : Digraph α → Digraph α) (next : Unit → Editing α γ) :
    runOn (modify change >>= next) graph = runOn (next ()) (change graph) :=
  rfl

theorem runOn_throw (error : EditError) :
    runOn (throw error : Editing α γ) graph = (.error error, graph) :=
  rfl

theorem runOn_vertex_bind (request : Edit) (name : Int) (next : Nat → Editing α γ) :
    runOn (request.vertex name >>= next) graph =
      match graph.index? name with
      | some v => runOn (next v) graph
      | none => (.error (.outOfRange request graph.size), graph) := by
  simp only [Edit.vertex, bind_assoc, runOn_get_bind]
  cases graph.index? name with
  | none => rfl
  | some v => rfl

end Steps

end Editing

namespace Digraph

variable {α : Type}

open Editing

theorem ext_vertex? {graph other : Digraph α} (same : ∀ v, graph.vertex? v = other.vertex? v) :
    graph = other := by
  obtain ⟨vertices⟩ := graph
  obtain ⟨others⟩ := other
  congr
  exact Array.ext_getElem? same

/-- Erasing an edge that is not there writes nothing. -/
theorem eraseSuccessor_of_not_hasEdge (graph : Digraph α) {u v : Nat}
    (absent : graph.hasEdge u v = false) : graph.eraseSuccessor u v = graph := by
  refine ext_vertex? fun w => ?_
  rw [eraseSuccessor, vertex?_modify]
  split
  · rename_i isSource
    subst isSource
    cases found : graph.vertex? u with
    | none => rfl
    | some vertex =>
        have notThere : v ∉ vertex.successors := by
          simpa [hasEdge, successors, neighbours, found, Vertex.neighbours] using absent
        rw [Option.map_some, List.erase_of_not_mem notThere]
  · rfl

/-- The program of an edit performs it, and a refusal leaves nothing written. -/
theorem runOn_program (graph : Digraph α) (request : Edit) :
    runOn request.program graph =
      match graph.edit request with
      | .ok changed => (.ok (), changed)
      | .error error => (.error error, graph) := by
  cases request with
  | link source target =>
      simp only [Edit.program, edit, runOn_vertex_bind, runOn_modify]
      cases graph.index? source with
      | none => rfl
      | some u =>
          cases graph.index? target with
          | none => rfl
          | some v => rfl
  | unlink source target =>
      simp only [Edit.program, edit, runOn_vertex_bind, runOn_get_bind, runOn_modify_bind]
      cases graph.index? source with
      | none => rfl
      | some u =>
          cases graph.index? target with
          | none => rfl
          | some v =>
              dsimp only
              cases found : graph.hasEdge u v with
              | true => rfl
              | false =>
                  -- The edit fails behind its first write, which erased nothing.
                  rw [eraseSuccessor_of_not_hasEdge graph found]
                  rfl
  | retarget source old new =>
      simp only [Edit.program, edit, runOn_vertex_bind, runOn_modify]
      cases graph.index? source with
      | none => rfl
      | some u =>
          cases graph.index? old with
          | none => rfl
          | some v =>
              cases graph.index? new with
              | none => rfl
              | some w => rfl
  | detach name =>
      simp only [Edit.program, edit, runOn_vertex_bind, runOn_modify]
      cases graph.index? name with
      | none => rfl
      | some v => rfl

/-! ## Sequences of calls -/

inductive Request (α : Type) where
  | addVertex (payload : α)
  | edit (request : Edit)
  | clone
deriving DecidableEq, Repr

/-- A call names the graph it is made on by the order of creation. -/
structure Call (α : Type) where
  handle : Nat
  request : Request α
deriving DecidableEq, Repr

def perform (graphs : List (Digraph α)) (call : Call α) :
    Except EditError Unit × List (Digraph α) :=
  match graphs[call.handle]? with
  | none => (.ok (), graphs)
  | some graph =>
    match call.request with
    | .addVertex payload => (.ok (), graphs.set call.handle (graph.addVertex payload))
    | .edit request =>
      let ended := runOn request.program graph
      (ended.1, graphs.set call.handle ended.2)
    | .clone => (.ok (), graphs ++ [graph])

/-- The graphs after a sequence of calls that starts with one empty graph.  A
call that fails is followed by the next one. -/
def afterCalls (calls : List (Call α)) : List (Digraph α) :=
  calls.foldl (fun graphs call => (perform graphs call).2) [empty]

section Step

variable {graphs : List (Digraph α)} {call : Call α}

/-- A call leaves graphs that edits produce. -/
theorem built_perform (built : ∀ graph ∈ graphs, graph.Built) :
    ∀ graph ∈ (perform graphs call).2, graph.Built := by
  intro graph member
  simp only [perform] at member
  split at member
  · exact built graph member
  · rename_i target found
    have builtTarget := built target (List.mem_of_getElem? found)
    split at member
    · rcases List.mem_or_eq_of_mem_set member with old | rfl
      · exact built graph old
      · exact builtTarget.addVertex _
    · rename_i request _
      rcases List.mem_or_eq_of_mem_set member with old | rfl
      · exact built graph old
      · rw [runOn_program]
        split
        · rename_i accepted
          exact builtTarget.edit request accepted
        · exact builtTarget
    · rcases List.mem_append.mp member with old | new
      · exact built graph old
      · rwa [List.mem_singleton.mp new]

/-- A call that fails leaves every graph as it was. -/
theorem perform_of_error {error : EditError} (failed : (perform graphs call).1 = .error error) :
    (perform graphs call).2 = graphs := by
  simp only [perform] at failed ⊢
  split at failed
  · cases failed
  · rename_i target found
    obtain ⟨within, isTarget⟩ := List.getElem?_eq_some_iff.mp found
    split at failed
    · cases failed
    · rw [runOn_program] at failed ⊢
      split at failed
      · cases failed
      · rw [← isTarget]
        exact List.set_getElem_self within
    · cases failed

end Step

theorem built_afterCalls (calls : List (Call α)) : ∀ graph ∈ afterCalls calls, graph.Built := by
  induction calls using List.reverseRecOn with
  | nil =>
      intro graph member
      rw [List.mem_singleton.mp member]
      exact .empty
  | append_singleton calls call inductionHypothesis =>
      rw [afterCalls, List.foldl_append]
      exact built_perform inductionHypothesis

/-- After any calls with any numbers, failing ones among them, every edge of every
graph is listed as often at its target as at its source, and no list names a
number beyond the graph.  The next call leaves all graphs as they are if it
fails, and an edit made in place ends as the edit of the graph does. -/
theorem afterCalls_symmetric (calls : List (Call α)) :
    (∀ graph ∈ afterCalls calls,
      (∀ u v, (graph.successors u).count v = (graph.predecessors v).count u) ∧
      (∀ direction u, ∀ v ∈ graph.neighbours direction u, u < graph.size ∧ v < graph.size) ∧
      ∀ request : Edit, runOn request.program graph =
        match graph.edit request with
        | .ok changed => (.ok (), changed)
        | .error error => (.error error, graph)) ∧
    ∀ call error, (perform (afterCalls calls) call).1 = .error error →
      (perform (afterCalls calls) call).2 = afterCalls calls := by
  refine ⟨fun graph member => ?_, fun call error failed => perform_of_error failed⟩
  have consistent := (built_afterCalls calls graph member).consistent
  refine ⟨consistent.symmetric, fun direction u v listed => ?_, runOn_program graph⟩
  exact ⟨lt_size_of_mem_neighbours listed, consistent.mem_neighbours_lt listed⟩

/-- Repeated edges and a self-edge, turned in place and onto the self-edge; two
calls that fail; and a copy in which the vertex is detached and linked again. -/
def mixedCalls : List (Call Unit) :=
  [⟨0, .addVertex ()⟩, ⟨0, .addVertex ()⟩, ⟨0, .edit (.link 2 2)⟩, ⟨0, .edit (.link 2 3)⟩,
    ⟨0, .edit (.link 2 3)⟩, ⟨0, .edit (.link 3 (-1))⟩, ⟨0, .edit (.unlink 3 2)⟩,
    ⟨0, .edit (.retarget 2 3 3)⟩, ⟨0, .edit (.retarget 2 3 2)⟩, ⟨0, .clone⟩,
    ⟨1, .edit (.detach 2)⟩, ⟨1, .edit (.link 2 3)⟩]

theorem afterCalls_symmetric_mixedCalls :
    (afterCalls mixedCalls).map (fun graph => (graph.successors 2, graph.predecessors 2)) =
        [([2, 2, 2], [2, 2, 2]), ([3], [])] ∧
      (perform (afterCalls mixedCalls) ⟨1, .edit (.unlink 3 2)⟩).1 =
        .error (.noSuchEdge 3 2) ∧
      (perform (afterCalls mixedCalls) ⟨1, .edit (.unlink 3 2)⟩).2 = afterCalls mixedCalls := by
  have failed : (perform (afterCalls mixedCalls) ⟨1, .edit (.unlink 3 2)⟩).1 =
      .error (.noSuchEdge 3 2) := by
    decide +kernel
  exact ⟨by decide +kernel, failed, (afterCalls_symmetric mixedCalls).2 _ _ failed⟩

end Digraph

end FlowRegions
