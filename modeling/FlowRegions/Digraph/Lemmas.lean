import FlowRegions.Digraph.Basic

/-!
Contract: what each primitive edit does to the view of a graph.

The view is the size, the payloads, the detached marks and the two adjacency
lists of every index.  Each edit has one equation for each part of the view it
touches, so that later results need not unfold it.
-/

namespace FlowRegions.Digraph

variable {α : Type}

/-! ## Vertices -/

theorem vertex?_eq_none_iff (graph : Digraph α) (v : Nat) :
    graph.vertex? v = none ↔ graph.size ≤ v := by
  simp [vertex?, size]

theorem index?_eq_some_iff (graph : Digraph α) (name : Int) (v : Nat) :
    graph.index? name = some v ↔ name = v ∧ v < graph.size := by
  cases name with
  | ofNat n =>
      simp only [index?, Option.ite_none_right_eq_some, Option.some.injEq, Int.ofNat_eq_natCast,
        Int.natCast_inj]
      constructor
      · rintro ⟨bound, rfl⟩
        exact ⟨rfl, bound⟩
      · rintro ⟨rfl, bound⟩
        exact ⟨bound, rfl⟩
  | negSucc n =>
      simp [index?]

theorem index?_of_lt {graph : Digraph α} {v : Nat} (within : v < graph.size) :
    graph.index? v = some v :=
  (index?_eq_some_iff graph v v).mpr ⟨rfl, within⟩

@[simp]
theorem size_modify (graph : Digraph α) (v : Nat) (change : Vertex α → Vertex α) :
    (graph.modify v change).size = graph.size := by
  simp [modify, size]

theorem vertex?_modify (graph : Digraph α) (v w : Nat) (change : Vertex α → Vertex α) :
    (graph.modify v change).vertex? w =
      if v = w then (graph.vertex? w).map change else graph.vertex? w := by
  simp only [modify, vertex?, Array.getElem?_modify]

@[simp]
theorem size_addVertex (graph : Digraph α) (payload : α) :
    (graph.addVertex payload).size = graph.size + 1 := by
  simp [addVertex, size]

theorem vertex?_addVertex (graph : Digraph α) (payload : α) (w : Nat) :
    (graph.addVertex payload).vertex? w =
      if w = graph.size then some { payload := some payload } else graph.vertex? w := by
  simp only [addVertex, vertex?, size, Array.getElem?_push]
  rfl

/-- A new vertex has no edges, and the edges of the others stay. -/
@[simp]
theorem neighbours_addVertex (graph : Digraph α) (payload : α) (direction : Direction)
    (w : Nat) :
    (graph.addVertex payload).neighbours direction w = graph.neighbours direction w := by
  simp only [neighbours, vertex?_addVertex]
  by_cases isNew : w = graph.size
  · subst isNew
    have absent : graph.vertex? graph.size = none :=
      (vertex?_eq_none_iff graph graph.size).mpr (Nat.le_refl _)
    cases direction <;> simp [absent, Vertex.neighbours]
  · simp [isNew]

/-! ## Changes of one vertex -/

/-- A change that keeps an adjacency list keeps it for every index. -/
theorem neighbours_modify_of_eq (graph : Digraph α) (v w : Nat)
    (change : Vertex α → Vertex α) (direction : Direction)
    (keeps : ∀ vertex, (change vertex).neighbours direction = vertex.neighbours direction) :
    (graph.modify v change).neighbours direction w = graph.neighbours direction w := by
  simp only [neighbours, vertex?_modify]
  by_cases same : v = w
  · cases graph.vertex? w <;> simp [same, keeps]
  · simp [same]

/-- A change that maps one adjacency list maps it at that index only. -/
theorem neighbours_modify_map (graph : Digraph α) (v w : Nat)
    (change : Vertex α → Vertex α) (direction : Direction) (onList : List Nat → List Nat)
    (maps : ∀ vertex,
      (change vertex).neighbours direction = onList (vertex.neighbours direction)) :
    (graph.modify v change).neighbours direction w =
      if v = w ∧ w < graph.size then onList (graph.neighbours direction w)
      else graph.neighbours direction w := by
  simp only [neighbours, vertex?_modify]
  by_cases same : v = w
  · cases found : graph.vertex? w with
    | none =>
        have beyond := (vertex?_eq_none_iff graph w).mp found
        simp [Nat.not_lt.mpr beyond]
    | some vertex =>
        have within : w < graph.size := by
          rw [← Nat.not_le, ← vertex?_eq_none_iff, found]
          simp
        simp [same, within, maps]
  · simp [same]

/-! ## Edges -/

@[simp]
theorem size_appendPredecessor (graph : Digraph α) (source target : Nat) :
    (graph.appendPredecessor source target).size = graph.size := by
  simp [appendPredecessor]

@[simp]
theorem size_erasePredecessor (graph : Digraph α) (source target : Nat) :
    (graph.erasePredecessor source target).size = graph.size := by
  simp [erasePredecessor]

@[simp]
theorem size_eraseSuccessor (graph : Digraph α) (source target : Nat) :
    (graph.eraseSuccessor source target).size = graph.size := by
  simp [eraseSuccessor]

@[simp]
theorem successors_appendPredecessor (graph : Digraph α) (source target w : Nat) :
    (graph.appendPredecessor source target).successors w = graph.successors w :=
  neighbours_modify_of_eq graph target w _ .forward fun _ => rfl

@[simp]
theorem successors_erasePredecessor (graph : Digraph α) (source target w : Nat) :
    (graph.erasePredecessor source target).successors w = graph.successors w :=
  neighbours_modify_of_eq graph target w _ .forward fun _ => rfl

@[simp]
theorem predecessors_eraseSuccessor (graph : Digraph α) (source target w : Nat) :
    (graph.eraseSuccessor source target).predecessors w = graph.predecessors w :=
  neighbours_modify_of_eq graph source w _ .backward fun _ => rfl

theorem predecessors_appendPredecessor (graph : Digraph α) (source target w : Nat) :
    (graph.appendPredecessor source target).predecessors w =
      if target = w ∧ w < graph.size then graph.predecessors w ++ [source]
      else graph.predecessors w :=
  neighbours_modify_map graph target w _ .backward (· ++ [source]) fun _ => rfl

theorem predecessors_erasePredecessor (graph : Digraph α) (source target w : Nat) :
    (graph.erasePredecessor source target).predecessors w =
      if target = w ∧ w < graph.size then (graph.predecessors w).erase source
      else graph.predecessors w :=
  neighbours_modify_map graph target w _ .backward (List.erase · source) fun _ => rfl

theorem successors_eraseSuccessor (graph : Digraph α) (source target w : Nat) :
    (graph.eraseSuccessor source target).successors w =
      if source = w ∧ w < graph.size then (graph.successors w).erase target
      else graph.successors w :=
  neighbours_modify_map graph source w _ .forward (List.erase · target) fun _ => rfl

@[simp]
theorem size_addEdge (graph : Digraph α) (source target : Nat) :
    (graph.addEdge source target).size = graph.size := by
  simp [addEdge]

/-- An edge is added behind those that leave its source. -/
theorem successors_addEdge (graph : Digraph α) (source target w : Nat) :
    (graph.addEdge source target).successors w =
      if source = w ∧ w < graph.size then graph.successors w ++ [target]
      else graph.successors w := by
  simp only [addEdge, successors_appendPredecessor]
  exact neighbours_modify_map graph source w _ .forward (· ++ [target]) fun _ => rfl

/-- An edge is added behind those that enter its target. -/
theorem predecessors_addEdge (graph : Digraph α) (source target w : Nat) :
    (graph.addEdge source target).predecessors w =
      if target = w ∧ w < graph.size then graph.predecessors w ++ [source]
      else graph.predecessors w := by
  have kept (w : Nat) :
      (graph.modify source fun vertex =>
        { vertex with successors := vertex.successors ++ [target] }).predecessors w =
        graph.predecessors w :=
    neighbours_modify_of_eq graph source w _ .backward fun _ => rfl
  simp only [addEdge, predecessors_appendPredecessor, size_modify, kept]

@[simp]
theorem size_removeEdge (graph : Digraph α) (source target : Nat) :
    (graph.removeEdge source target).size = graph.size := by
  simp [removeEdge]

/-- The first edge to the target is removed. -/
theorem successors_removeEdge (graph : Digraph α) (source target w : Nat) :
    (graph.removeEdge source target).successors w =
      if source = w ∧ w < graph.size then (graph.successors w).erase target
      else graph.successors w := by
  simp only [removeEdge, successors_erasePredecessor, successors_eraseSuccessor]

/-- The first record of the source is removed. -/
theorem predecessors_removeEdge (graph : Digraph α) (source target w : Nat) :
    (graph.removeEdge source target).predecessors w =
      if target = w ∧ w < graph.size then (graph.predecessors w).erase source
      else graph.predecessors w := by
  simp only [removeEdge, predecessors_erasePredecessor, predecessors_eraseSuccessor,
    size_eraseSuccessor]

/-! ## Retargeting and detaching -/

/-- What every application of a step keeps, its repetition keeps. -/
private theorem repeat_invariant {β γ : Type} (view : β → γ) (step : β → β)
    (keeps : ∀ x, view (step x) = view x) (count : Nat) (x : β) :
    view (Nat.repeat step count x) = view x := by
  induction count with
  | zero => rfl
  | succ count inductionHypothesis =>
      simp only [Nat.repeat, keeps, inductionHypothesis]

/-- What every application of a step keeps, a fold of it keeps. -/
private theorem foldl_invariant {β γ δ : Type} (view : β → γ) (step : β → δ → β)
    (keeps : ∀ x d, view (step x d) = view x) (items : List δ) (x : β) :
    view (items.foldl step x) = view x := by
  induction items generalizing x with
  | nil => rfl
  | cons item items inductionHypothesis =>
      simp only [List.foldl_cons, inductionHypothesis, keeps]

@[simp]
theorem size_redirect (graph : Digraph α) (source old new : Nat) :
    (graph.redirect source old new).size = graph.size := by
  simp only [redirect]
  rw [repeat_invariant size]
  · simp
  · intro moved
    simp

/-- Every edge to the old target leads to the new one, in its place. -/
theorem successors_redirect (graph : Digraph α) (source old new w : Nat) :
    (graph.redirect source old new).successors w =
      if source = w ∧ w < graph.size then
        (graph.successors w).map fun target => if target = old then new else target
      else graph.successors w := by
  simp only [redirect]
  rw [repeat_invariant (fun moved : Digraph α => moved.successors w)]
  · exact neighbours_modify_map graph source w _ .forward
      (List.map fun target => if target = old then new else target) fun _ => rfl
  · intro moved
    simp

@[simp]
theorem size_isolate (graph : Digraph α) (v : Nat) : (graph.isolate v).size = graph.size := by
  simp only [isolate, size_modify]
  rw [foldl_invariant size, foldl_invariant size]
  · intro moved target
    by_cases same : target = v <;> simp [same]
  · intro moved source
    by_cases same : source = v <;> simp [same]

/-- A vertex that was detached has no edges left. -/
@[simp]
theorem neighbours_isolate_self (graph : Digraph α) (v : Nat) (direction : Direction) :
    (graph.isolate v).neighbours direction v = [] := by
  simp only [isolate, neighbours, vertex?_modify, ite_true]
  split
  · rename_i found
    rw [Option.map_eq_some_iff] at found
    obtain ⟨_, _, rfl⟩ := found
    cases direction <;> rfl
  · rfl

/-- A vertex that was detached is marked as such. -/
theorem isDetached_isolate_self (graph : Digraph α) (v : Nat) (within : v < graph.size) :
    (graph.isolate v).isDetached v = true := by
  have sameSize := size_isolate graph v
  simp only [isolate, size_modify] at sameSize
  simp only [isolate, isDetached, vertex?_modify, ite_true]
  generalize List.foldl _ _ _ = unlinked at sameSize
  cases found : unlinked.vertex? v with
  | none =>
      have beyond := (vertex?_eq_none_iff unlinked v).mp found
      omega
  | some vertex => rfl

end FlowRegions.Digraph
