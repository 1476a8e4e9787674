import FlowRegions.Digraph.Traversal
import FlowRegions.Proofs.Digraph.Walks
import FlowRegions.Proofs.Lists

/-!
Contract: the postorder cursor meets exactly what is reachable from its start.

A vertex is on the path of the cursor from the time it is met until it is
produced.  Vertices produced have no unmet neighbours; those of a vertex on the
path are met or still to be looked at.

Owns: `Postorder.Progress`, kept by every step of a traversal, and
`Postorder.mem_toList_iff`.
-/

namespace FlowRegions.Postorder

variable {α : Type} {graph : Digraph α} {direction : Direction} {start : Nat}

theorem unmet?_eq_some {visited : Visited} {remaining rest : List Nat} {next : Nat}
    (found : unmet? visited remaining = some (next, rest)) :
    next ∈ remaining ∧ visited.contains next = false ∧
      ∀ w ∈ remaining, visited.contains w = true ∨ w = next ∨ w ∈ rest := by
  induction remaining with
  | nil => cases found
  | cons first later inductionHypothesis =>
      rw [unmet?] at found
      split at found
      · rename_i met
        obtain ⟨member, fresh, split⟩ := inductionHypothesis found
        refine ⟨List.mem_cons_of_mem _ member, fresh, ?_⟩
        intro w isRemaining
        rcases List.mem_cons.mp isRemaining with rfl | isLater
        · exact .inl met
        · exact split w isLater
      · rename_i unmet
        cases found
        refine ⟨List.mem_cons_self, by simpa using unmet, ?_⟩
        intro w isRemaining
        rcases List.mem_cons.mp isRemaining with same | isLater
        · exact .inr (.inl same)
        · exact .inr (.inr isLater)

theorem unmet?_rest_subset {visited : Visited} {remaining rest : List Nat} {next : Nat}
    (found : unmet? visited remaining = some (next, rest)) : rest ⊆ remaining := by
  induction remaining with
  | nil => cases found
  | cons first later inductionHypothesis =>
      rw [unmet?] at found
      split at found
      · exact fun w member => List.mem_cons_of_mem _ (inductionHypothesis found member)
      · cases found
        exact fun w member => List.mem_cons_of_mem _ member

theorem unmet?_eq_none {visited : Visited} {remaining : List Nat}
    (exhausted : unmet? visited remaining = none) :
    ∀ w ∈ remaining, visited.contains w = true := by
  induction remaining with
  | nil => simp
  | cons first later inductionHypothesis =>
      rw [unmet?] at exhausted
      split at exhausted
      · rename_i met
        intro w member
        rcases List.mem_cons.mp member with rfl | isLater
        · exact met
        · exact inductionHypothesis exhausted w isLater
      · cases exhausted

/-! ## The invariant -/

structure Progress (graph : Digraph α) (direction : Direction) (start : Nat)
    (produced : List Nat) (visited : Visited) (path : List (Nat × List Nat)) : Prop where
  visited_iff : ∀ v, visited.contains v = true ↔
    v ∈ produced ∨ v ∈ path.map Prod.fst ∨ graph.size ≤ v
  distinct : (produced ++ path.map Prod.fst).Nodup
  within : ∀ v ∈ produced ++ path.map Prod.fst, v < graph.size
  reached : ∀ v ∈ produced ++ path.map Prod.fst, graph.Reaches direction start v
  started : start ∈ produced ++ path.map Prod.fst
  closed : ∀ v ∈ produced, ∀ w ∈ graph.neighbours direction v, visited.contains w = true
  pending : ∀ entry ∈ path, entry.2 ⊆ graph.neighbours direction entry.1 ∧
    ∀ w ∈ graph.neighbours direction entry.1, visited.contains w = true ∨ w ∈ entry.2

theorem progress_start (within : start < graph.size) :
    Progress graph direction start [] ((Visited.empty graph.size).insert start)
      [(start, graph.neighbours direction start)] where
  visited_iff := by
    intro v
    rw [Visited.contains_insert_iff, Visited.contains_empty, decide_eq_true_eq]
    simp only [List.not_mem_nil, List.map_cons, List.map_nil, List.mem_singleton, false_or]
    exact ⟨fun either => either.symm.imp_left Eq.symm, fun either => (either.imp_left Eq.symm).symm⟩
  distinct := by simp
  within := by simpa using within
  reached := by simpa using Digraph.Reaches.refl start
  started := by simp
  closed := by simp
  pending := by
    intro entry member
    rw [List.mem_singleton.mp member]
    exact ⟨fun w isNeighbour => isNeighbour, fun w isNeighbour => .inr isNeighbour⟩

section Step

variable {produced : List Nat} {visited : Visited} {path : List (Nat × List Nat)} {v : Nat}
  {remaining : List Nat}

/-- No more vertices are on the path than there are. -/
theorem Progress.length_le (progress : Progress graph direction start produced visited path) :
    produced.length + path.length ≤ graph.size := by
  have bound := length_le_of_lt progress.distinct progress.within
  rwa [List.length_append, List.length_map] at bound

/-- A vertex whose unmet neighbour is met keeps the rest of them in view. -/
theorem looks_insert {next : Nat} {neighbours rest : List Nat}
    (look : ∀ w ∈ neighbours, visited.contains w = true ∨ w ∈ remaining)
    (found : unmet? visited remaining = some (next, rest)) :
    ∀ w ∈ neighbours, (visited.insert next).contains w = true ∨ w ∈ rest := by
  intro w isNeighbour
  rw [Visited.contains_insert_iff]
  rcases look w isNeighbour with met | left
  · exact .inl (.inl met)
  · rcases (unmet?_eq_some found).2.2 w left with met | isNext | isRest
    · exact .inl (.inl met)
    · exact .inl (.inr isNext.symm)
    · exact .inr isRest

/-- Going down to an unmet neighbour. -/
theorem Progress.down (consistent : graph.Consistent)
    (progress : Progress graph direction start produced visited ((v, remaining) :: path))
    {next : Nat} {rest : List Nat} (found : unmet? visited remaining = some (next, rest)) :
    Progress graph direction start produced (visited.insert next)
      ((next, graph.neighbours direction next) :: (v, rest) :: path) := by
  obtain ⟨isRemaining, fresh, _⟩ := unmet?_eq_some found
  obtain ⟨subset, look⟩ := progress.pending (v, remaining) List.mem_cons_self
  have edge : next ∈ graph.neighbours direction v := subset isRemaining
  have more : (produced ++
      ((next, graph.neighbours direction next) :: (v, rest) :: path).map Prod.fst).Perm
        (next :: (produced ++ ((v, remaining) :: path).map Prod.fst)) := List.perm_middle
  have notMet : next ∉ produced ++ ((v, remaining) :: path).map Prod.fst := by
    intro met
    have seen := (progress.visited_iff next).mpr
      ((List.mem_append.mp met).imp_right .inl)
    rw [fresh] at seen
    cases seen
  refine
    { visited_iff := ?_
      distinct := more.nodup_iff.mpr (List.nodup_cons.mpr ⟨notMet, progress.distinct⟩)
      within := ?_
      reached := ?_
      started := more.mem_iff.mpr (List.mem_cons_of_mem _ progress.started)
      closed := ?_
      pending := ?_ }
  · intro w
    rw [Visited.contains_insert_iff, progress.visited_iff]
    simp only [List.map_cons, List.mem_cons, eq_comm]
    tauto
  · intro w member
    rcases List.mem_cons.mp (more.mem_iff.mp member) with rfl | isOld
    · exact consistent.mem_neighbours_lt edge
    · exact progress.within w isOld
  · intro w member
    rcases List.mem_cons.mp (more.mem_iff.mp member) with rfl | isOld
    · exact (progress.reached v (by simp)).edge edge
    · exact progress.reached w isOld
  · intro u isProduced w isNeighbour
    exact (visited.contains_insert_iff next w).mpr
      (.inl (progress.closed u isProduced w isNeighbour))
  · intro entry member
    rcases List.mem_cons.mp member with rfl | later
    · exact ⟨fun w isNeighbour => isNeighbour, fun w isNeighbour => .inr isNeighbour⟩
    · rcases List.mem_cons.mp later with rfl | isOld
      · exact ⟨fun w isRest => subset (unmet?_rest_subset found isRest),
          looks_insert look found⟩
      · obtain ⟨oldSubset, oldLook⟩ := progress.pending entry (List.mem_cons_of_mem _ isOld)
        exact ⟨oldSubset, fun w isNeighbour => (oldLook w isNeighbour).imp_left fun met =>
          (visited.contains_insert_iff next w).mpr (.inl met)⟩

/-- Producing a vertex that has no unmet neighbour. -/
theorem Progress.up
    (progress : Progress graph direction start produced visited ((v, remaining) :: path))
    (exhausted : unmet? visited remaining = none) :
    Progress graph direction start (produced ++ [v]) visited path := by
  have same : produced ++ [v] ++ path.map Prod.fst =
      produced ++ ((v, remaining) :: path).map Prod.fst := by simp
  refine
    { visited_iff := ?_
      distinct := same ▸ progress.distinct
      within := same ▸ progress.within
      reached := same ▸ progress.reached
      started := same ▸ progress.started
      closed := ?_
      pending := fun entry member => progress.pending entry (List.mem_cons_of_mem _ member) }
  · intro w
    rw [progress.visited_iff]
    simp only [List.map_cons, List.mem_cons, List.mem_append, List.not_mem_nil, or_false]
    tauto
  · intro u isProduced w isNeighbour
    rcases List.mem_append.mp isProduced with before | last
    · exact progress.closed u before w isNeighbour
    · rw [List.mem_singleton.mp last] at isNeighbour
      rcases (progress.pending (v, remaining) List.mem_cons_self).2 w isNeighbour with met | left
      · exact met
      · exact unmet?_eq_none exhausted w left

/-- A descent ends by producing a vertex: the path cannot grow longer than the
graph. -/
theorem Progress.descend (consistent : graph.Consistent) (fuel : Nat)
    (progress : Progress graph direction start produced visited ((v, remaining) :: path))
    (enough : graph.size ≤ fuel + path.length) :
    Progress graph direction start
      (produced ++ [(Postorder.descend graph direction fuel visited v remaining path).1])
      (Postorder.descend graph direction fuel visited v remaining path).2.1
      (Postorder.descend graph direction fuel visited v remaining path).2.2 := by
  induction fuel generalizing visited v remaining path with
  | zero =>
      have bound := progress.length_le
      rw [List.length_cons] at bound
      omega
  | succ fuel inductionHypothesis =>
      rw [Postorder.descend]
      split
      · rename_i exhausted
        exact progress.up exhausted
      · rename_i next rest found
        refine inductionHypothesis (progress.down consistent found) ?_
        rw [List.length_cons]
        omega

end Step

/-! ## Complete traversals -/

/-- A run of steps keeps the invariant, and is shorter than asked for only when
the path is empty. -/
theorem Progress.take (consistent : graph.Consistent) (count : Nat) {produced : List Nat}
    {visited : Visited} {path : List (Nat × List Nat)}
    (progress : Progress graph direction start produced visited path) :
    let outcome := Postorder.take count ⟨graph, direction, visited, path⟩
    Progress graph direction start (produced ++ outcome.1) outcome.2.visited outcome.2.path ∧
      (outcome.1.length < count → outcome.2.path = []) := by
  induction count generalizing produced visited path with
  | zero =>
      refine ⟨?_, fun short => absurd short (Nat.not_lt_zero _)⟩
      rw [Postorder.take, List.append_nil]
      exact progress
  | succ count inductionHypothesis =>
      rw [Postorder.take]
      cases path with
      | nil => exact ⟨by rwa [Postorder.next?, List.append_nil], fun _ => rfl⟩
      | cons entry path =>
          have step := progress.descend consistent (graph.size + 1) (by omega)
          obtain ⟨rest, ended⟩ := inductionHypothesis step
          rw [List.append_assoc, List.singleton_append] at rest
          exact ⟨rest, fun short => ended (Nat.lt_of_succ_lt_succ short)⟩

/-- A traversal asked for as many vertices as the graph has meets exactly what
is reachable. -/
theorem mem_toList_iff (consistent : graph.Consistent) (within : start < graph.size) (v : Nat) :
    v ∈ (Postorder.start graph direction start).toList ↔ graph.Reaches direction start v := by
  have begun : Progress graph direction start [] _ _ := progress_start within
  obtain ⟨final, ended⟩ := begun.take consistent graph.size
  have visits : (Postorder.start graph direction start).toList =
      (Postorder.take graph.size ⟨graph, direction, (Visited.empty graph.size).insert start,
        [(start, graph.neighbours direction start)]⟩).1 := by
    unfold toList Postorder.start
    rw [if_pos within]
  rw [visits]
  generalize Postorder.take graph.size ⟨graph, direction, _, _⟩ = outcome at final ended ⊢
  rw [List.nil_append] at final
  have finished : outcome.2.path = [] := by
    by_cases short : outcome.1.length < graph.size
    · exact ended short
    · have bound := final.length_le
      rw [← List.length_eq_zero_iff]
      omega
  rw [finished] at final
  constructor
  · intro member
    exact final.reached v (List.mem_append_left _ member)
  · intro reaches
    rw [Digraph.reaches_iff] at reaches
    induction reaches with
    | refl => simpa using final.started
    | @tail u w _ edge inductionHypothesis =>
        have met := final.closed u inductionHypothesis w edge
        have inRange := consistent.mem_neighbours_lt edge
        rcases (final.visited_iff w).mp met with isProduced | onPath | beyond
        · exact isProduced
        · cases onPath
        · omega

end FlowRegions.Postorder
