import FlowRegions.Digraph.Lemmas

/-!
Contract: payloads and detached marks under the primitive edits.

Owns: `Digraph.marks`, the part of a vertex that no edit of edges touches, and
for each primitive edit the equation that says what it does to it.  Which
indices are real, live or detached is read off the marks alone.
-/

namespace FlowRegions.Digraph

variable {α : Type}

def marks (graph : Digraph α) (v : Nat) : Option (Option α × Bool) :=
  (graph.vertex? v).map fun vertex => (vertex.payload, vertex.detached)

theorem payload?_eq_marks (graph : Digraph α) (v : Nat) :
    graph.payload? v = (graph.marks v).bind Prod.fst := by
  simp only [payload?, marks]
  cases graph.vertex? v <;> rfl

theorem isDetached_eq_marks (graph : Digraph α) (v : Nat) :
    graph.isDetached v = (graph.marks v).any Prod.snd := by
  simp only [isDetached, marks]
  cases graph.vertex? v <;> rfl

theorem isLive_eq_marks (graph : Digraph α) (v : Nat) :
    graph.isLive v = (graph.marks v).any fun mark => mark.1.isSome && !mark.2 := by
  simp only [isLive, marks]
  cases graph.vertex? v <;> rfl

theorem isLive_iff (graph : Digraph α) (v : Nat) :
    graph.isLive v = true ↔ (graph.payload? v).isSome ∧ graph.isDetached v = false := by
  simp only [isLive_eq_marks, payload?_eq_marks, isDetached_eq_marks]
  cases graph.marks v with
  | none => simp
  | some mark => simp

theorem marks_eq_none_iff (graph : Digraph α) (v : Nat) :
    graph.marks v = none ↔ graph.size ≤ v := by
  simp only [marks, Option.map_eq_none_iff, vertex?_eq_none_iff]

theorem lt_size_of_isLive {graph : Digraph α} {v : Nat} (live : graph.isLive v = true) :
    v < graph.size := by
  rw [← Nat.not_le, ← marks_eq_none_iff]
  intro absent
  simp [isLive_eq_marks, absent] at live

theorem mem_liveIndices (graph : Digraph α) (v : Nat) :
    v ∈ graph.liveIndices ↔ graph.isLive v = true := by
  simp only [liveIndices, indices, List.mem_filter, List.mem_range, and_iff_right_iff_imp]
  exact lt_size_of_isLive

/-! ## Edits of edges -/

theorem marks_modify_of_eq (graph : Digraph α) (v w : Nat) (change : Vertex α → Vertex α)
    (keeps : ∀ vertex, (change vertex).payload = vertex.payload ∧
      (change vertex).detached = vertex.detached) :
    (graph.modify v change).marks w = graph.marks w := by
  simp only [marks, vertex?_modify]
  by_cases same : v = w
  · cases graph.vertex? w <;> simp [same, keeps]
  · simp [same]

@[simp]
theorem marks_appendPredecessor (graph : Digraph α) (source target w : Nat) :
    (graph.appendPredecessor source target).marks w = graph.marks w :=
  marks_modify_of_eq graph target w _ fun _ => ⟨rfl, rfl⟩

@[simp]
theorem marks_erasePredecessor (graph : Digraph α) (source target w : Nat) :
    (graph.erasePredecessor source target).marks w = graph.marks w :=
  marks_modify_of_eq graph target w _ fun _ => ⟨rfl, rfl⟩

@[simp]
theorem marks_eraseSuccessor (graph : Digraph α) (source target w : Nat) :
    (graph.eraseSuccessor source target).marks w = graph.marks w :=
  marks_modify_of_eq graph source w _ fun _ => ⟨rfl, rfl⟩

@[simp]
theorem marks_addEdge (graph : Digraph α) (source target w : Nat) :
    (graph.addEdge source target).marks w = graph.marks w := by
  simp only [addEdge, marks_appendPredecessor]
  exact marks_modify_of_eq graph source w _ fun _ => ⟨rfl, rfl⟩

@[simp]
theorem marks_addEdges (graph : Digraph α) (source : Nat) (targets : List Nat) (w : Nat) :
    (graph.addEdges source targets).marks w = graph.marks w := by
  induction targets generalizing graph with
  | nil => rfl
  | cons target targets inductionHypothesis =>
      simp only [addEdges, List.foldl_cons]
      exact (inductionHypothesis (graph.addEdge source target)).trans (marks_addEdge ..)

@[simp]
theorem marks_removeEdge (graph : Digraph α) (source target w : Nat) :
    (graph.removeEdge source target).marks w = graph.marks w := by
  simp only [removeEdge, marks_erasePredecessor, marks_eraseSuccessor]

@[simp]
theorem marks_redirect (graph : Digraph α) (source old new w : Nat) :
    (graph.redirect source old new).marks w = graph.marks w := by
  simp only [redirect]
  generalize (graph.successors source).count old = count
  induction count with
  | zero => exact marks_modify_of_eq graph source w _ fun _ => ⟨rfl, rfl⟩
  | succ count inductionHypothesis =>
      simp only [Nat.repeat, marks_appendPredecessor, marks_erasePredecessor, inductionHypothesis]

/-! ## Edits of vertices -/

theorem marks_addVertex (graph : Digraph α) (payload : α) (w : Nat) :
    (graph.addVertex payload).marks w =
      if w = graph.size then some (some payload, false) else graph.marks w := by
  simp only [marks, vertex?_addVertex]
  split <;> rfl

/-- What a fold of edits keeps one by one, the fold keeps. -/
theorem marks_foldl (step : Digraph α → Nat → Digraph α)
    (keeps : ∀ graph v w, (step graph v).marks w = graph.marks w)
    (items : List Nat) (graph : Digraph α) (w : Nat) :
    (items.foldl step graph).marks w = graph.marks w := by
  induction items generalizing graph with
  | nil => rfl
  | cons item items inductionHypothesis =>
      rw [List.foldl_cons, inductionHypothesis, keeps]

/-- Detaching marks one vertex and keeps its payload. -/
theorem marks_isolate (graph : Digraph α) (v w : Nat) :
    (graph.isolate v).marks w =
      if v = w then (graph.marks w).map fun mark => (mark.1, true) else graph.marks w := by
  have forgets (kept : Digraph α) (target u : Nat) :
      (if target = v then kept else kept.erasePredecessor v target).marks u = kept.marks u := by
    split <;> simp
  have releases (kept : Digraph α) (source u : Nat) :
      (if source = v then kept else kept.eraseSuccessor source v).marks u = kept.marks u := by
    split <;> simp
  simp only [isolate]
  have unlinked := marks_foldl _ releases (graph.predecessors v)
    ((graph.successors v).foldl
      (fun graph target => if target = v then graph else graph.erasePredecessor v target) graph) w
  rw [marks_foldl _ forgets] at unlinked
  rw [← unlinked]
  generalize List.foldl _ _ _ = rest
  simp only [marks, vertex?_modify]
  split
  · cases rest.vertex? w <;> rfl
  · rfl

theorem marks_isolateAll (graph : Digraph α) (vertices : List Nat) (w : Nat) :
    (graph.isolateAll vertices).marks w =
      if w ∈ vertices then (graph.marks w).map fun mark => (mark.1, true) else graph.marks w := by
  induction vertices generalizing graph with
  | nil => rfl
  | cons v vertices inductionHypothesis =>
      have step := inductionHypothesis (graph.isolate v)
      simp only [isolateAll, List.foldl_cons] at step ⊢
      rw [step, marks_isolate]
      by_cases same : v = w
      · subst same
        cases graph.marks v <;> simp
      · have other : w ≠ v := fun equal => same equal.symm
        simp only [if_neg same, List.mem_cons, other, false_or]

@[simp]
theorem size_isolateAll (graph : Digraph α) (vertices : List Nat) :
    (graph.isolateAll vertices).size = graph.size := by
  induction vertices generalizing graph with
  | nil => rfl
  | cons v vertices inductionHypothesis =>
      simp only [isolateAll, List.foldl_cons] at inductionHypothesis ⊢
      rw [inductionHypothesis, size_isolate]

@[simp]
theorem size_addEdges (graph : Digraph α) (source : Nat) (targets : List Nat) :
    (graph.addEdges source targets).size = graph.size := by
  induction targets generalizing graph with
  | nil => rfl
  | cons target targets inductionHypothesis =>
      simp only [addEdges, List.foldl_cons] at inductionHypothesis ⊢
      rw [inductionHypothesis, size_addEdge]

end FlowRegions.Digraph
