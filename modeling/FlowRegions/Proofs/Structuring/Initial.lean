import FlowRegions.Structuring.Run
import FlowRegions.Proofs.Digraph.Edgeless
import FlowRegions.Proofs.Structuring.Fidelity

/-!
Contract: the region graph a run starts from.

Owns:
- `RegionGraph.Joined` and `RegionGraph.Sound`, what is asked of an input beyond
  being accepted: it is consistent and edges join vertices that are not detached;
  in a sound input the root leads to real vertices besides;
- `RegionGraph.Adopted`, the region graph while the vertices of the input are
  taken over one by one, and `RegionGraph.Taken`, what it is when the input is
  joined;
- that the region graph of a sound input is well formed and faithful.
-/

namespace FlowRegions.RegionGraph

open FlowRegions.Digraph (root terminator)

variable {α : Type} {config : Config} {input : Digraph α} {graph : RegionGraph}
  {entry done : Nat}

/-- An input whose edges join vertices that take part in it. -/
structure Joined (input : Digraph α) : Prop where
  consistent : input.Consistent
  attached : ∀ {u v}, v ∈ input.successors u →
    input.isDetached u = false ∧ input.isDetached v = false

structure Sound (input : Digraph α) : Prop where
  consistent : input.Consistent
  attached : ∀ {u v}, v ∈ input.successors u →
    input.isDetached u = false ∧ input.isDetached v = false
  rooted : ∀ v ∈ input.successors root, 2 ≤ v

theorem Sound.joined (sound : Sound input) : Joined input :=
  ⟨sound.consistent, sound.attached⟩

/-- Edges are looked at vertex by vertex. -/
theorem attached_of_lt (each : ∀ u < input.size, ∀ v ∈ input.successors u,
    input.isDetached u = false ∧ input.isDetached v = false) {u v : Nat}
    (edge : v ∈ input.successors u) : input.isDetached u = false ∧ input.isDetached v = false :=
  each u (Digraph.lt_size_of_mem_neighbours edge) v edge

def inputTargets (input : Digraph α) (v : Nat) : List Nat :=
  if 2 ≤ v then (input.successors v).filter (· != terminator) else []

/-- The region graph when the vertices below `done` are taken over. -/
structure Taken (input : Digraph α) (entry done : Nat) (graph : RegionGraph) : Prop where
  consistent : graph.Consistent
  size_eq : graph.size = input.size
  table_eq : ∀ v, graph.table v =
    if 2 ≤ v ∧ v < input.size then some { shape := .leaf v } else none
  live_iff : ∀ v, graph.isLive v = true ↔
    2 ≤ v ∧ v < input.size ∧ ¬ (v < done ∧ input.isDetached v = true)
  synthetic : ∀ v < 2, graph.isDetached v = false
  successors_eq : ∀ v, graph.successors v =
    if v = root then [entry] else if 2 ≤ v ∧ v < done then input.successors v else []
  accepted : ∀ {v}, 2 ≤ v → v < done → root ∉ input.successors v ∧
    (terminator ∈ input.successors v → (input.successors v).length ≤ 1)

/-- Whether an edge is left when the vertices below `done` are taken over: a detached
vertex loses the edges that earlier ones have to it, and keeps those that later ones
get. -/
def survives (input : Digraph α) (done u t : Nat) : Bool :=
  !(decide (u < t) && decide (t < done) && input.isDetached t)

/-- The same when edges may touch detached vertices. -/
structure Adopted (input : Digraph α) (entry done : Nat) (graph : RegionGraph) : Prop where
  consistent : graph.Consistent
  size_eq : graph.size = input.size
  table_eq : ∀ v, graph.table v =
    if 2 ≤ v ∧ v < input.size then some { shape := .leaf v } else none
  live_iff : ∀ v, graph.isLive v = true ↔
    2 ≤ v ∧ v < input.size ∧ ¬ (v < done ∧ input.isDetached v = true)
  synthetic : ∀ v < 2, graph.isDetached v = false
  successors_eq : ∀ v, graph.successors v =
    (if v = root then [entry]
      else if 2 ≤ v ∧ v < done ∧ input.isDetached v = false then input.successors v
      else []).filter (survives input done v)
  accepted : ∀ {v}, 2 ≤ v → v < done → input.isDetached v = false →
    root ∉ input.successors v ∧
      (terminator ∈ input.successors v → (input.successors v).length ≤ 1)

/-! ## Leaves -/

def leafNodes (input : Digraph α) : List Node :=
  (List.range (input.size - 2)).map fun i => { shape := .leaf (i + 2) }

theorem leavesOf_eq (input : Digraph α) : leavesOf input = Digraph.edgeless (leafNodes input) := by
  have vertices : input.indices.drop 2 = (List.range (input.size - 2)).map (· + 2) := by
    refine List.ext_getElem (by simp [Digraph.indices]) fun i low high => ?_
    simp [Digraph.indices, Nat.add_comm]
  rw [leavesOf, vertices, Digraph.edgeless, leafNodes, List.foldl_map, List.foldl_map]

theorem marks_leavesOf (input : Digraph α) (v : Nat) :
    (leavesOf input).marks v =
      if v < 2 then some (none, false)
      else if v < input.size then some (some { shape := .leaf v }, false) else none := by
  rw [leavesOf_eq, Digraph.marks_edgeless]
  split
  · rfl
  · rename_i real
    rw [leafNodes, List.getElem?_map]
    by_cases within : v < input.size
    · rw [List.getElem?_range (by omega), if_pos within]
      simp [Nat.sub_add_cancel (Nat.not_lt.mp real)]
    · rw [List.getElem?_eq_none (by rw [List.length_range]; omega), if_neg within]
      rfl

/-! ## Taking over vertices -/

theorem adopted_leaves (consistent : input.Consistent) (isEntry : entry ∈ input.successors root) :
    Adopted input entry 0 ((leavesOf input).addEdge root entry) := by
  have size := consistent.atLeastTwo
  have sizeEq : (leavesOf input).size = input.size := by
    rw [leavesOf_eq, Digraph.size_edgeless, leafNodes, List.length_map, List.length_range]
    omega
  have entryWithin := consistent.inRange root entry isEntry
  have marks (v : Nat) : ((leavesOf input).addEdge root entry).marks v = _ :=
    (Digraph.marks_addEdge ..).trans (marks_leavesOf input v)
  refine
    { consistent := ?_
      size_eq := by rw [Digraph.size_addEdge, sizeEq]
      table_eq := ?_
      live_iff := ?_
      synthetic := fun v below => by
        rw [Digraph.isDetached_eq_marks, marks, if_pos below]
        rfl
      successors_eq := ?_
      accepted := fun _ below => absurd below (Nat.not_lt_zero _) }
  · have leaves : (leavesOf input).Consistent := by
      rw [leavesOf_eq]
      exact Digraph.consistent_edgeless _
    exact leaves.addEdge (by rw [sizeEq]; simp only [root]; omega)
      (by rw [sizeEq]; exact entryWithin)
  · intro v
    unfold table
    rw [Digraph.payload?_eq_marks, marks]
    by_cases synthetic : v < 2
    · rw [if_pos synthetic, if_neg (by omega)]
      rfl
    · rw [if_neg synthetic]
      by_cases within : v < input.size
      · rw [if_pos within, if_pos ⟨by omega, within⟩]
        rfl
      · rw [if_neg within, if_neg (by omega)]
        rfl
  · intro v
    rw [Digraph.isLive_eq_marks, marks]
    by_cases synthetic : v < 2
    · simp [synthetic, Nat.not_le.mpr synthetic]
    · by_cases within : v < input.size
      · simp [synthetic, within, Nat.not_lt.mp synthetic]
      · simp [synthetic, within]
  · intro v
    rw [Digraph.successors_addEdge, sizeEq, leavesOf_eq, Digraph.successors_edgeless,
      List.filter_eq_self.mpr fun t _ => by simp [survives]]
    by_cases isRoot : v = root
    · subst isRoot
      rw [if_pos ⟨rfl, by simp only [root]; omega⟩, if_pos rfl]
      rfl
    · rw [if_neg (fun both => isRoot both.1.symm), if_neg isRoot, if_neg (by omega)]

section TakeOver

variable (adopted : Adopted input entry done graph)
include adopted

/-- A synthetic vertex is passed over. -/
theorem Adopted.skip (real : entry ≠ terminator) (synthetic : ¬ 2 ≤ done) :
    Adopted input entry (done + 1) graph where
  consistent := adopted.consistent
  size_eq := adopted.size_eq
  table_eq := adopted.table_eq
  live_iff := by
    intro v
    rw [adopted.live_iff]
    refine and_congr_right fun real => ?_
    rw [show v < done ↔ v < done + 1 by omega]
  synthetic := adopted.synthetic
  successors_eq := by
    intro v
    rw [adopted.successors_eq]
    by_cases isRoot : v = root
    · rw [if_pos isRoot, if_pos isRoot]
      refine List.filter_congr fun t isEntry => ?_
      rw [List.mem_singleton.mp isEntry]
      have later : v < entry → (entry < done ↔ entry < done + 1) := by
        simp only [root, terminator] at isRoot real
        omega
      by_cases ahead : v < entry
      · simp only [survives, later ahead]
      · simp [survives, ahead]
    · rw [if_neg isRoot, if_neg isRoot, if_neg (by omega), if_neg (by omega)]
      rfl
  accepted := fun real below => adopted.accepted real (by omega)

/-- A detached vertex loses the edges that lead to it so far. -/
theorem Adopted.detach (real : 2 ≤ done) (detached : input.isDetached done = true) :
    Adopted input entry (done + 1) (graph.isolate done) := by
  refine
    { consistent := adopted.consistent.isolate done
      size_eq := by rw [Digraph.size_isolate, adopted.size_eq]
      table_eq := fun v => ?_
      live_iff := fun v => ?_
      synthetic := fun v below => by
        rw [Digraph.isDetached_eq_marks, Digraph.marks_isolate, if_neg (by omega),
          ← Digraph.isDetached_eq_marks, adopted.synthetic v below]
      successors_eq := fun v => ?_
      accepted := fun {v} vReal below attached => adopted.accepted vReal ?_ attached }
  · rw [← adopted.table_eq]
    unfold table
    rw [Digraph.payload?_eq_marks, Digraph.marks_isolate, Digraph.payload?_eq_marks]
    split
    · cases graph.marks v <;> rfl
    · rfl
  · have before := adopted.live_iff v
    rw [Digraph.isLive_eq_marks] at before ⊢
    rw [Digraph.marks_isolate]
    by_cases same : done = v
    · subst same
      rw [if_pos rfl]
      cases graph.marks done <;> simp [detached]
    · rw [if_neg same, before, show v < done ↔ v < done + 1 by omega]
  · rw [adopted.consistent.successors_isolate]
    by_cases same : v = done
    · have notRoot : v ≠ root := by
        simp only [root]
        omega
      rw [if_pos same, if_neg notRoot, if_neg fun both => by simp [same, detached] at both]
      rfl
    · have bounds : v < done ↔ v < done + 1 := by omega
      rw [if_neg same, adopted.successors_eq, List.filter_filter]
      simp only [bounds]
      refine List.filter_congr fun t member => ?_
      -- Vertices behind this one have no edges yet.
      have earlier : v < done := by
        by_contra behind
        split at member
        · rename_i isRoot
          simp only [root] at isRoot
          omega
        · rw [if_neg (by omega)] at member
          cases member
      by_cases isDone : t = done
      · subst isDone
        simp [survives, earlier, detached]
      · simp only [survives, show t < done ↔ t < done + 1 by omega, bne_iff_ne.mpr isDone,
          Bool.true_and]
  · by_contra last
    rw [show v = done by omega, detached] at attached
    cases attached

/-- The edges of any other vertex are linked in order. -/
theorem Adopted.link (consistent : input.Consistent) (real : 2 ≤ done)
    (within : done < input.size) (attached : input.isDetached done = false)
    (notToRoot : root ∉ input.successors done)
    (oneWay : terminator ∈ input.successors done → (input.successors done).length ≤ 1) :
    Adopted input entry (done + 1) (graph.addEdges done (input.successors done)) := by
  have notRoot : done ≠ root := by
    simp only [root]
    omega
  have none : graph.successors done = [] := by
    rw [adopted.successors_eq, if_neg notRoot, if_neg (by omega)]
    rfl
  have marks (v : Nat) := Digraph.marks_addEdges graph done (input.successors done) v
  refine
    { consistent := adopted.consistent.addEdges (by rw [adopted.size_eq]; exact within) ?_
      size_eq := by rw [Digraph.size_addEdges, adopted.size_eq]
      table_eq := fun v => ?_
      live_iff := fun v => ?_
      synthetic := fun v below => by
        rw [Digraph.isDetached_eq_marks, marks, ← Digraph.isDetached_eq_marks,
          adopted.synthetic v below]
      successors_eq := fun v => ?_
      accepted := fun {v} vReal below vAttached => ?_ }
  · intro t member
    rw [adopted.size_eq]
    exact consistent.inRange done t member
  · rw [← adopted.table_eq]
    unfold table
    rw [Digraph.payload?_eq_marks, marks, Digraph.payload?_eq_marks]
  · rw [Digraph.isLive_eq_marks, marks, ← Digraph.isLive_eq_marks, adopted.live_iff]
    by_cases same : v = done
    · subst same
      simp [attached]
    · rw [show v < done ↔ v < done + 1 by omega]
  · rw [Digraph.successors_addEdges, adopted.size_eq]
    by_cases same : v = done
    · subst same
      rw [if_pos ⟨rfl, within⟩, none, if_neg notRoot, if_pos ⟨real, by omega, attached⟩,
        List.nil_append, List.filter_eq_self.mpr fun t _ => ?_]
      simp only [survives, Bool.not_eq_true', Bool.and_eq_false_iff, decide_eq_false_iff_not]
      omega
    · have bounds : v < done ↔ v < done + 1 := by omega
      rw [if_neg (fun both => same both.1.symm), adopted.successors_eq]
      simp only [bounds]
      refine List.filter_congr fun t _ => ?_
      by_cases isDone : t = done
      · subst isDone
        simp [survives, attached]
      · simp only [survives, show t < done ↔ t < done + 1 by omega]
  · by_cases last : v = done
    · subst last
      exact ⟨notToRoot, oneWay⟩
    · exact adopted.accepted vReal (by omega) vAttached

/-- Taking over one vertex. -/
theorem Adopted.takeOver (consistent : input.Consistent) {graph' : RegionGraph}
    (notEnd : entry ≠ terminator) {vertex : Vertex α}
    (found : input.vertex? done = some vertex)
    (accepted : takeOver graph (vertex, done) = .ok graph') :
    Adopted input entry (done + 1) graph' := by
  have within : done < input.size := by
    by_contra beyond
    rw [(Digraph.vertex?_eq_none_iff input done).mpr (by omega)] at found
    cases found
  have isReal : vertex.isReal = true ↔ 2 ≤ done := by
    have payloads := consistent.payloads done
    rw [Digraph.payload?, found] at payloads
    exact payloads.trans ⟨And.left, fun real => ⟨real, within⟩⟩
  have isDetached : vertex.detached = input.isDetached done := by
    rw [Digraph.isDetached, found]
    rfl
  have isSuccessors : vertex.successors = input.successors done := by
    rw [Digraph.successors, Digraph.neighbours, found]
    rfl
  unfold RegionGraph.takeOver at accepted
  dsimp only at accepted
  rw [isDetached, isSuccessors] at accepted
  split at accepted
  · rename_i synthetic
    cases accepted
    exact adopted.skip notEnd fun real => by simp [isReal.mpr real] at synthetic
  rename_i real
  have doneReal : 2 ≤ done := isReal.mp (by simpa using real)
  split at accepted
  · rename_i detached
    cases accepted
    exact adopted.detach doneReal detached
  rename_i attached
  split at accepted
  · cases accepted
  rename_i oneWay
  split at accepted
  · cases accepted
  rename_i notToRoot
  cases accepted
  simp only [Bool.and_eq_true, decide_eq_true_eq, List.contains_eq_mem, not_and] at oneWay
  refine adopted.link consistent doneReal within (by simpa using attached)
    (by simpa using notToRoot) ?_
  intro returns
  by_contra many
  exact oneWay (by omega) returns

end TakeOver

/-- A fold over numbered items keeps what each step keeps. -/
theorem foldlM_zipIdx {ι κ ε : Type} {step : κ → ι × Nat → Except ε κ} (holds : Nat → κ → Prop)
    {items : List ι} {first : Nat}
    (keeps : ∀ {i x before after}, (x, i) ∈ items.zipIdx first → holds i before →
      step before (x, i) = .ok after → holds (i + 1) after)
    {start final : κ} (begins : holds first start)
    (ends : (items.zipIdx first).foldlM step start = .ok final) :
    holds (first + items.length) final := by
  induction items generalizing first start with
  | nil =>
      cases ends
      exact begins
  | cons x rest inductionHypothesis =>
      rw [List.zipIdx_cons, List.foldlM_cons] at ends
      cases stepped : step start (x, first) with
      | error problem =>
          rw [stepped] at ends
          cases ends
      | ok next =>
          rw [stepped] at ends
          rw [List.length_cons, ← Nat.add_assoc, Nat.add_right_comm]
          refine inductionHypothesis (fun member => keeps ?_) (keeps (by simp) begins stepped) ends
          rw [List.zipIdx_cons]
          exact List.mem_cons_of_mem _ member

/-- The region graph of an accepted input has all its vertices taken over. -/
theorem adopted_of_ofInput (consistent : input.Consistent)
    (accepted : ofInput config input = .ok graph) :
    ∃ entry, (input.successors root).eraseDups = [entry] ∧ entry ≠ terminator ∧
      Adopted input entry input.size graph := by
  unfold ofInput at accepted
  dsimp only at accepted
  split at accepted
  · cases accepted
  split at accepted
  · rename_i entry entries
    split at accepted
    · cases accepted
    rename_i notEnd
    have isEntry : entry ∈ input.successors root :=
      List.mem_eraseDups.mp (by rw [entries]; simp)
    have all := foldlM_zipIdx (Adopted input entry)
      (fun member adopted stepped => adopted.takeOver consistent notEnd
        (by simpa [Digraph.vertex?] using List.mem_zipIdx_iff_getElem?.mp member) stepped)
      (adopted_leaves consistent isEntry) accepted
    refine ⟨entry, entries, notEnd, ?_⟩
    simpa [Digraph.size] using all
  · cases accepted

/-- In a joined input detached vertices have no edges, and every edge is taken over. -/
theorem Adopted.taken (joined : Joined input) (isEntry : entry ∈ input.successors root)
    (adopted : Adopted input entry done graph) : Taken input entry done graph := by
  have isolated {v : Nat} (detached : input.isDetached v = true) : input.successors v = [] := by
    rw [List.eq_nil_iff_forall_not_mem]
    intro t edge
    have attached := (joined.attached edge).1
    rw [detached] at attached
    cases attached
  have kept {u v t : Nat} (edge : t ∈ input.successors u) : survives input done v t = true := by
    simp [survives, (joined.attached edge).2]
  refine
    { consistent := adopted.consistent
      size_eq := adopted.size_eq
      table_eq := adopted.table_eq
      live_iff := adopted.live_iff
      synthetic := adopted.synthetic
      successors_eq := fun v => ?_
      accepted := fun {v} real below => ?_ }
  · rw [adopted.successors_eq]
    by_cases isRoot : v = root
    · rw [if_pos isRoot, if_pos isRoot]
      refine List.filter_eq_self.mpr fun t member => ?_
      rw [List.mem_singleton.mp member]
      exact kept isEntry
    rw [if_neg isRoot, if_neg isRoot]
    cases detached : input.isDetached v with
    | true =>
        rw [isolated detached]
        simp
    | false =>
        simp only [and_true]
        refine List.filter_eq_self.mpr fun t member => ?_
        split at member
        · exact kept member
        · cases member
  · cases detached : input.isDetached v with
    | true =>
        rw [isolated detached]
        simp
    | false => exact adopted.accepted real below detached

theorem taken_of_ofInput (joined : Joined input) (accepted : ofInput config input = .ok graph) :
    ∃ entry, (input.successors root).eraseDups = [entry] ∧ entry ≠ terminator ∧
      Taken input entry input.size graph := by
  obtain ⟨entry, entries, notEnd, adopted⟩ := adopted_of_ofInput joined.consistent accepted
  have isEntry : entry ∈ input.successors root :=
    List.mem_eraseDups.mp (by rw [entries]; simp)
  exact ⟨entry, entries, notEnd, adopted.taken joined isEntry⟩

/-- A fold whose steps all succeed succeeds. -/
theorem exists_foldlM {ι κ ε : Type} {step : κ → ι → Except ε κ} {items : List ι}
    (succeeds : ∀ x ∈ items, ∀ before, ∃ after, step before x = .ok after) (start : κ) :
    ∃ final, items.foldlM step start = .ok final := by
  induction items generalizing start with
  | nil => exact ⟨start, rfl⟩
  | cons x rest inductionHypothesis =>
      obtain ⟨next, stepped⟩ := succeeds x List.mem_cons_self start
      rw [List.foldlM_cons, stepped]
      exact inductionHypothesis (fun y member => succeeds y (List.mem_cons_of_mem _ member)) next

/-- A graph is accepted when it is small enough, its root leads to one real
vertex, and no vertex branches to the root or branches and returns. -/
theorem exists_ofInput (consistent : input.Consistent)
    (few : (input.liveCount : Int) ≤ config.maxVertices)
    (entries : (input.successors root).eraseDups = [entry]) (real : entry ≠ terminator)
    (ways : ∀ v, 2 ≤ v → root ∉ input.successors v ∧
      (terminator ∈ input.successors v → (input.successors v).length ≤ 1)) :
    ∃ graph, ofInput config input = .ok graph := by
  unfold ofInput
  dsimp only
  rw [if_neg (by omega), entries]
  dsimp only
  rw [if_neg real]
  refine exists_foldlM ?_ _
  rintro ⟨vertex, v⟩ member before
  have found : input.vertex? v = some vertex := by
    simpa [Digraph.vertex?] using List.mem_zipIdx_iff_getElem?.mp member
  unfold takeOver
  dsimp only
  split
  · exact ⟨_, rfl⟩
  rename_i isReal
  split
  · exact ⟨_, rfl⟩
  have vReal : 2 ≤ v := by
    refine ((consistent.payloads v).mp ?_).1
    rw [Digraph.payload?, found]
    change vertex.isReal = true
    simpa using isReal
  have isSuccessors : vertex.successors = input.successors v := by
    rw [Digraph.successors, Digraph.neighbours, found]
    rfl
  obtain ⟨notToRoot, oneWay⟩ := ways v vReal
  rw [isSuccessors, if_neg, if_neg]
  · exact ⟨_, rfl⟩
  · simpa using notToRoot
  · simp only [Bool.and_eq_true, decide_eq_true_eq, List.contains_eq_mem, not_and]
    intro many returns
    have := oneWay returns
    omega

/-! ## The graph a run starts from -/

section Leaves

variable (leaves : ∀ v, graph.table v =
  if 2 ≤ v ∧ v < input.size then some { shape := .leaf v } else none)
include leaves

theorem not_isJump_of_leaves (v : Nat) : graph.isJump v = false := by
  rw [isJump, kind?, leaves]
  split <;> rfl

theorem eq_leaf_of_leaves {i : Nat} {node : Node} (found : graph.table i = some node) :
    node = { shape := .leaf i } := by
  rw [leaves] at found
  split at found
  · exact (Option.some.inj found).symm
  · cases found

/-- Leaves refer to no region. -/
theorem nested_of_leaves : graph.table.Nested := by
  refine ⟨?_, ?_⟩
  · intro i node found r refers
    rw [eq_leaf_of_leaves leaves found] at refers
    cases refers
  · intro i nodes cond found
    cases eq_leaf_of_leaves leaves found

end Leaves

namespace Taken

section Leaves

variable (taken : Taken input entry input.size graph)
include taken

theorem isLive_iff (v : Nat) : graph.isLive v = true ↔
    2 ≤ v ∧ v < input.size ∧ input.isDetached v = false := by
  rw [taken.live_iff]
  refine and_congr_right fun _ => and_congr_right fun within => ?_
  simp [within]

theorem not_isJump (v : Nat) : graph.isJump v = false :=
  not_isJump_of_leaves taken.table_eq v

/-- Every region is a leaf. -/
theorem node_eq {i : Nat} {node : Node} (found : graph.table i = some node) :
    node = { shape := .leaf i } :=
  eq_leaf_of_leaves taken.table_eq found

theorem nested : graph.table.Nested :=
  nested_of_leaves taken.table_eq

variable {v : Nat} (real : 2 ≤ v) (within : v < input.size)
include real within

theorem table_leaf : graph.table v = some { shape := .leaf v } := by
  rw [taken.table_eq, if_pos ⟨real, within⟩]

theorem firstVertex?_eq : graph.firstVertex? v = some v := by
  have unfolded := NodeTable.walk_unfold _ NodeTable.firstVertex?_succ taken.nested
    (taken.size_eq ▸ within : v < graph.size)
  rw [taken.table_leaf real within] at unfolded
  exact unfolded

theorem branchingVertex?_eq : graph.branchingVertex? v = some v := by
  have unfolded := NodeTable.walk_unfold _ NodeTable.branchingVertex?_succ taken.nested
    (taken.size_eq ▸ within : v < graph.size)
  rw [taken.table_leaf real within] at unfolded
  exact unfolded

theorem branchCond?_eq : graph.branchCond? v = some (.test v) := by
  have unfolded := NodeTable.walk_unfold _ NodeTable.branchCond?_succ taken.nested
    (taken.size_eq ▸ within : v < graph.size)
  rw [taken.table_leaf real within] at unfolded
  exact unfolded

theorem branches_eq : graph.branches v = inputTargets input v := by
  have notRoot : v ≠ root := by
    simp only [root]
    omega
  rw [branches, taken.successors_eq, if_neg notRoot, if_pos ⟨real, within⟩, inputTargets,
    if_pos real]

/-- Branches lead to real vertices: no vertex branches to the root. -/
theorem real_of_mem_inputTargets (consistent : input.Consistent) {t : Nat}
    (member : t ∈ inputTargets input v) : 2 ≤ t ∧ t < input.size := by
  rw [inputTargets, if_pos real, List.mem_filter, bne_iff_ne] at member
  obtain ⟨edge, notEnd⟩ := member
  have notRoot : t ≠ root := by
    rintro rfl
    exact (taken.accepted real within).1 edge
  simp only [root, terminator] at notRoot notEnd
  exact ⟨by omega, consistent.inRange v t edge⟩

/-- The branches of a vertex start where its edges lead. -/
theorem firsts_eq (consistent : input.Consistent) :
    (graph.branches v).map graph.firstVertex? = (inputTargets input v).map some := by
  rw [taken.branches_eq real within]
  refine List.map_congr_left fun t member => ?_
  obtain ⟨tReal, tWithin⟩ := taken.real_of_mem_inputTargets real within consistent member
  exact taken.firstVertex?_eq tReal tWithin

end Leaves

/-- A vertex that branches has no edges but its branches: no vertex branches and
returns. -/
theorem length_successors_of_target (taken : Taken input entry input.size graph) {v : Nat}
    (branches : inputTargets input v ≠ []) :
    2 ≤ v ∧ (input.successors v).length = (inputTargets input v).length := by
  unfold inputTargets at branches ⊢
  split at branches
  · rename_i real
    obtain ⟨t, isTarget⟩ := List.exists_mem_of_ne_nil _ branches
    obtain ⟨edge, notEnd⟩ := List.mem_filter.mp isTarget
    have stays : terminator ∉ input.successors v := by
      intro returns
      have few := (taken.accepted real (Digraph.lt_size_of_mem_neighbours edge)).2 returns
      obtain ⟨only, isOnly⟩ := List.length_eq_one_iff.mp
        (Nat.le_antisymm few (List.length_pos_of_mem edge))
      rw [isOnly, List.mem_singleton] at edge returns
      exact bne_iff_ne.mp notEnd (edge.trans returns.symm)
    have all : (input.successors v).filter (· != terminator) = input.successors v :=
      List.filter_eq_self.mpr fun t member => bne_iff_ne.mpr fun isEnd => stays (isEnd ▸ member)
    rw [if_pos real, all]
    exact ⟨real, rfl⟩
  · exact absurd rfl branches

/-- A vertex with one branch has one edge. -/
theorem length_successors_of_one_target (taken : Taken input entry input.size graph) {v : Nat}
    (one : (inputTargets input v).length = 1) :
    2 ≤ v ∧ (input.successors v).length = 1 := by
  obtain ⟨real, same⟩ := taken.length_successors_of_target
    (List.ne_nil_of_length_pos (one.symm ▸ Nat.one_pos))
  exact ⟨real, same.trans one⟩

/-- The graph a run starts from is faithful to the input. -/
theorem faithful (taken : Taken input entry input.size graph) (consistent : input.Consistent)
    {targets : Nat → List Nat}
    (same : ∀ v, 2 ≤ v → targets v = (input.successors v).filter (· != terminator)) :
    Faithful config targets graph := by
  refine ⟨fun {v} live => ?_, fun {v} live => ?_⟩
  · obtain ⟨real, within, _⟩ := (taken.isLive_iff v).mp live
    exact ⟨v, taken.firstVertex?_eq real within⟩
  · obtain ⟨real, within, _⟩ := (taken.isLive_iff v).mp live
    refine .plain (taken.branchingVertex?_eq real within) (taken.branchCond?_eq real within) ?_
    rw [taken.firsts_eq real within consistent, inputTargets, if_pos real, same v real]

section Sound

variable (sound : Sound input) (isEntry : entry ∈ input.successors root)
  (taken : Taken input entry input.size graph)
include sound isEntry taken

/-- The graph a run starts from is well formed. -/
theorem wellFormed : graph.WellFormed := by
  have targetLive {u v : Nat} (edge : v ∈ input.successors u) (real : 2 ≤ v) :
      graph.isLive v = true :=
    (taken.isLive_iff v).mpr
      ⟨real, sound.consistent.inRange u v edge, (sound.attached edge).2⟩
  refine
    { consistent := taken.consistent
      entry := ⟨entry, by rw [taken.successors_eq, if_pos rfl],
        targetLive isEntry (sound.rooted entry isEntry), taken.not_isJump entry⟩
      ends := ?_
      nested := taken.nested
      jump_sink := fun {j} isJump => by
        rw [taken.not_isJump j] at isJump
        cases isJump
      jump_entrant := fun {j} _ _ isJump => by
        rw [taken.not_isJump j] at isJump
        cases isJump }
  intro u v edge
  rw [taken.successors_eq] at edge
  split at edge
  · rename_i isRoot
    rw [List.mem_singleton.mp edge]
    exact ⟨.inl isRoot, .inr (targetLive isEntry (sound.rooted entry isEntry))⟩
  · split at edge
    · rename_i bounds
      refine ⟨.inr ((taken.isLive_iff u).mpr
        ⟨bounds.1, bounds.2, (sound.attached edge).1⟩), ?_⟩
      have notRoot : v ≠ root := by
        rintro rfl
        exact (taken.accepted bounds.1 bounds.2).1 edge
      by_cases isEnd : v = terminator
      · exact .inl isEnd
      · refine .inr (targetLive edge ?_)
        simp only [root, terminator] at notRoot isEnd
        omega
    · cases edge

end Sound

end Taken

end FlowRegions.RegionGraph

namespace FlowRegions

/-- A structuring starts with the region graph of an accepted graph and nothing else. -/
theorem Structuring.exists_graph_of_ofGraph {α : Type} {config : Config}
    {input : Digraph α} {structuring : Structuring}
    (accepted : Structuring.ofGraph config input = .ok structuring) :
    ∃ graph, RegionGraph.ofInput config input = .ok graph ∧
      structuring = { config, state := { graph } } := by
  unfold Structuring.ofGraph at accepted
  split at accepted
  · cases accepted
  · rename_i graph made
    cases accepted
    exact ⟨graph, made, rfl⟩

end FlowRegions
