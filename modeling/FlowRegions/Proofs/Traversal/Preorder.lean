import FlowRegions.Digraph.Traversal
import FlowRegions.Proofs.Digraph.Walks
import FlowRegions.Proofs.Lists
import FlowRegions.Proofs.Traversal.DepthFirst

/-!
Contract: the preorder cursor produces a depth-first numbering of what is
reachable from its start.

The cursor pushes all unmet neighbours of a vertex at once, so its stack may
hold a vertex several times and hold vertices met meanwhile.  What carries the
proof is an order on the stack: the vertices from which its entries were found
all lie on the path down to the last vertex met, deeper ones on top.

Owns: `Preorder.Progress`, the invariant of a traversal under way, its step,
and `Preorder.exists_complete_toList`, that a complete traversal meets what is
reachable.
-/

namespace FlowRegions

variable {α : Type}

def EdgeAt (graph : Digraph α) (direction : Direction) (met : List Nat) (a b : Nat) : Prop :=
  ∃ u v, met[a]? = some u ∧ met[b]? = some v ∧ v ∈ graph.neighbours direction u

theorem EdgeAt.append_iff {graph : Digraph α} {direction : Direction} {met : List Nat}
    {x a b : Nat} (aWithin : a < met.length) (bWithin : b < met.length) :
    EdgeAt graph direction (met ++ [x]) a b ↔ EdgeAt graph direction met a b := by
  simp only [EdgeAt, List.getElem?_append_left aWithin, List.getElem?_append_left bWithin]

namespace Preorder

/-! ## Popping -/

theorem pop?_eq_some {visited : Visited} {stack rest : List (Nat × Nat)} {entry : Nat × Nat}
    (popped : pop? visited stack = some (entry, rest)) :
    ∃ dropped, stack = dropped ++ entry :: rest ∧
      (∀ earlier ∈ dropped, visited.contains earlier.1 = true) ∧
      visited.contains entry.1 = false := by
  induction stack with
  | nil => cases popped
  | cons top below inductionHypothesis =>
      simp only [pop?] at popped
      split at popped
      · rename_i met
        obtain ⟨dropped, split, allMet, fresh⟩ := inductionHypothesis popped
        refine ⟨top :: dropped, by rw [split, List.cons_append], ?_, fresh⟩
        intro earlier member
        rcases List.mem_cons.mp member with rfl | later
        · exact met
        · exact allMet earlier later
      · rename_i unmet
        cases popped
        exact ⟨[], rfl, by simp, by simpa using unmet⟩

theorem pop?_eq_none {visited : Visited} {stack : List (Nat × Nat)}
    (exhausted : pop? visited stack = none) :
    ∀ entry ∈ stack, visited.contains entry.1 = true := by
  induction stack with
  | nil => simp
  | cons top below inductionHypothesis =>
      simp only [pop?] at exhausted
      split at exhausted
      · rename_i met
        intro entry member
        rcases List.mem_cons.mp member with rfl | later
        · exact met
        · exact inductionHypothesis exhausted entry later
      · cases exhausted

/-! ## The invariant -/

/-- A traversal under way that has made the given visits, at least one, and
whose depth-first tree is given by `parent` on positions. -/
structure Progress (graph : Digraph α) (direction : Direction) (parent : Nat → Nat)
    (visits : List (Nat × Nat)) (cursor : Preorder α) : Prop where
  sameGraph : cursor.graph = graph
  sameDirection : cursor.direction = direction
  begun : visits ≠ []
  visited : ∀ v, cursor.visited.contains v = true ↔
    v ∈ visits.map Prod.fst ∨ graph.size ≤ v
  distinct : (visits.map Prod.fst).Nodup
  within : ∀ v ∈ visits.map Prod.fst, v < graph.size
  tree : DepthFirst visits.length parent
    (EdgeAt graph direction (visits.map Prod.fst))
  parents : ∀ i visit, visits[i]? = some visit →
    (visits.map Prod.fst)[parent i]? = some visit.2
  /-- Every entry was found from a vertex on the path down to the last one. -/
  pending : ∀ entry ∈ cursor.stack, entry.1 ∈ graph.neighbours direction entry.2 ∧
    ∃ i, (visits.map Prod.fst)[i]? = some entry.2 ∧ Ancestor parent i (visits.length - 1)
  /-- Deeper vertices are on top. -/
  ordered : cursor.stack.Pairwise fun upper lower => ∀ i j,
    (visits.map Prod.fst)[i]? = some upper.2 → (visits.map Prod.fst)[j]? = some lower.2 →
      Ancestor parent j i
  /-- A neighbour is met or waits on the stack. -/
  closed : ∀ v ∈ visits.map Prod.fst, ∀ w ∈ graph.neighbours direction v,
    w ∈ visits.map Prod.fst ∨ graph.size ≤ w ∨ (w, v) ∈ cursor.stack

/-- The first visit establishes the invariant. -/
theorem progress_first {graph : Digraph α} {direction : Direction} {start : Nat}
    (within : start < graph.size) :
    ∃ cursor, (Preorder.start graph direction start).next? = some ((start, start), cursor) ∧
      Progress graph direction (fun _ => 0) [(start, start)] cursor := by
  have unmet : (Visited.empty graph.size).contains start = false := by
    rw [Visited.contains_empty]
    simpa using within
  have popped : pop? (Visited.empty graph.size) [(start, start)] =
      some ((start, start), []) := by
    simp [pop?, unmet]
  refine ⟨_, by simp only [next?, Preorder.start, if_pos within, popped]; rfl, ?_⟩
  have single (i v : Nat) :
      ([(start, start)].map Prod.fst)[i]? = some v ↔ i = 0 ∧ v = start := by
    cases i with
    | zero => simp [eq_comm]
    | succ i => simp
  have visited_iff (v : Nat) : ((Visited.empty graph.size).insert start).contains v = true ↔
      graph.size ≤ v ∨ start = v := by
    rw [Visited.contains_insert_iff, Visited.contains_empty, decide_eq_true_eq]
  refine
    { sameGraph := rfl
      sameDirection := rfl
      begun := by simp
      visited := ?_
      distinct := by simp
      within := by simpa using within
      tree := .single ?_
      parents := ?_
      pending := ?_
      ordered := ?_
      closed := ?_ }
  · intro v
    rw [visited_iff, List.map_singleton, List.mem_singleton]
    exact ⟨fun either => (either.imp_right Eq.symm).symm,
      fun either => (either.imp_left Eq.symm).symm⟩
  · rintro a b ⟨u, v, atA, atB, _⟩
    exact ⟨((single a u).mp atA).1, ((single b v).mp atB).1⟩
  · intro i visit found
    have atZero : i = 0 := by
      have := (List.getElem?_eq_some_iff.mp found).1
      simpa using this
    subst atZero
    cases found
    rfl
  · intro entry member
    simp only [List.append_nil, List.mem_map, List.mem_filter] at member
    obtain ⟨next, ⟨edge, _⟩, rfl⟩ := member
    exact ⟨edge, 0, rfl, .self 0⟩
  · rw [List.append_nil, List.pairwise_map]
    refine List.pairwise_of_forall ?_
    intro upper lower i j atI atJ
    rw [((single i _).mp atI).1, ((single j _).mp atJ).1]
    exact .self 0
  · intro v member w edge
    obtain rfl : v = start := by simpa using member
    by_cases fresh : ((Visited.empty graph.size).insert v).contains w = true
    · rcases (visited_iff w).mp fresh with beyond | same
      · exact .inr (.inl beyond)
      · exact .inl (by simp [same])
    · refine .inr (.inr ?_)
      simp only [List.append_nil, List.mem_map, List.mem_filter]
      exact ⟨w, ⟨edge, by simpa using fresh⟩, rfl⟩

section Step

variable {graph : Digraph α} {direction : Direction} {parent : Nat → Nat}
  {visits : List (Nat × Nat)} {cursor : Preorder α}

private theorem extend_parent (above : Nat) {b : Nat} (within : b < visits.length) :
    Function.update parent visits.length above b = parent b :=
  Function.update_of_ne (by omega) _ _

/-- Ancestry among the vertices met so far is kept by the next visit. -/
private theorem ancestor_extend (progress : Progress graph direction parent visits cursor)
    {above a b : Nat} (ancestor : Ancestor parent a b) (within : b < visits.length) :
    Ancestor (Function.update parent visits.length above) a b :=
  ancestor.congr progress.tree.parent_lt (extend_parent above) within

/-- The traversal is about to visit `x`, an entry that was found from `p` at position
`above`, with the entries `rest` below it. -/
private structure Popped (graph : Digraph α) (direction : Direction) (parent : Nat → Nat)
    (visits : List (Nat × Nat)) (cursor : Preorder α) (x p above : Nat)
    (rest : List (Nat × Nat)) : Prop where
  edge : x ∈ graph.neighbours direction p
  position : (visits.map Prod.fst)[above]? = some p
  spine : Ancestor parent above (visits.length - 1)
  unmet : x ∉ visits.map Prod.fst
  within : x < graph.size
  waiting : ∀ entry ∈ rest, entry ∈ cursor.stack
  /-- What is below was found from vertices that are not deeper. -/
  below : ∀ entry ∈ rest, ∀ i, (visits.map Prod.fst)[i]? = some entry.2 →
    Ancestor parent i above
  ordered : rest.Pairwise fun upper lower => ∀ i j,
    (visits.map Prod.fst)[i]? = some upper.2 → (visits.map Prod.fst)[j]? = some lower.2 →
      Ancestor parent j i
  /-- What lay above was met. -/
  dropped : ∀ entry ∈ cursor.stack, entry.1 ∈ visits.map Prod.fst ∨ graph.size ≤ entry.1 ∨
    entry = (x, p) ∨ entry ∈ rest

private theorem Progress.popped (progress : Progress graph direction parent visits cursor)
    {x p : Nat} {rest : List (Nat × Nat)}
    (popped : pop? cursor.visited cursor.stack = some ((x, p), rest)) :
    ∃ above, Popped graph direction parent visits cursor x p above rest := by
  obtain ⟨dropped, stack, allMet, fresh⟩ := pop?_eq_some popped
  have unmet : ¬ (x ∈ visits.map Prod.fst ∨ graph.size ≤ x) := by
    rw [← progress.visited x, fresh]
    exact Bool.false_ne_true
  have isEntry : (x, p) ∈ cursor.stack := by simp [stack]
  obtain ⟨edge, above, position, spine⟩ := progress.pending _ isEntry
  have ordered := progress.ordered
  rw [stack, List.pairwise_append, List.pairwise_cons] at ordered
  obtain ⟨_, ⟨topOrdered, restOrdered⟩, _⟩ := ordered
  refine ⟨above,
    { edge
      position
      spine
      unmet := fun met => unmet (.inl met)
      within := Nat.lt_of_not_le fun beyond => unmet (.inr beyond)
      waiting := fun entry member => by simp [stack, member]
      below := fun entry member i atI => topOrdered entry member above i position atI
      ordered := restOrdered
      dropped := fun entry member => ?_ }⟩
  rw [stack, List.mem_append, List.mem_cons] at member
  rcases member with isDropped | isTop | isBelow
  · rcases (progress.visited entry.1).mp (allMet entry isDropped) with isMet | beyond
    · exact .inl isMet
    · exact .inr (.inl beyond)
  · exact .inr (.inr (.inl isTop))
  · exact .inr (.inr (.inr isBelow))

namespace Popped

variable {x p above : Nat} {rest : List (Nat × Nat)}
  (progress : Progress graph direction parent visits cursor)
  (popped : Popped graph direction parent visits cursor x p above rest)
include popped

private theorem above_lt : above < visits.length := by
  have within := lt_length_of_getElem? popped.position
  rwa [List.length_map] at within

omit popped in
private theorem getElem?_old (x : Nat) {i : Nat} (within : i < visits.length) :
    (visits.map Prod.fst ++ [x])[i]? = (visits.map Prod.fst)[i]? :=
  List.getElem?_append_left (by rwa [List.length_map])

omit popped in
private theorem getElem?_last (visits : List (Nat × Nat)) (x : Nat) :
    (visits.map Prod.fst ++ [x])[visits.length]? = some x := by
  have last := List.getElem?_concat_length (l := visits.map Prod.fst) (a := x)
  rwa [List.length_map] at last

private theorem distinct_extend (distinct : (visits.map Prod.fst).Nodup) :
    (visits.map Prod.fst ++ [x]).Nodup := by
  rw [List.nodup_append]
  refine ⟨distinct, by simp, ?_⟩
  intro a aMember b bMember
  rw [List.mem_singleton.mp bMember]
  exact fun equal => popped.unmet (equal ▸ aMember)

include progress

/-- A neighbour that is not met waits on the stack: on top, or below the top. -/
private theorem earlier {i u : Nat} (atI : (visits.map Prod.fst)[i]? = some u)
    (step : x ∈ graph.neighbours direction u) : Ancestor parent i above := by
  rcases progress.closed u (List.mem_of_getElem? atI) x step with met | beyond | waiting
  · exact absurd met popped.unmet
  · exact absurd popped.within (Nat.not_lt.mpr beyond)
  · rcases popped.dropped _ waiting with met | beyond | isTop | isBelow
    · exact absurd met popped.unmet
    · exact absurd popped.within (Nat.not_lt.mpr beyond)
    · obtain rfl : u = p := congrArg Prod.snd isTop
      rw [position_unique progress.distinct atI popped.position]
      exact .self above
    · exact popped.below _ isBelow i atI

/-- What is above the parent of the new vertex is above the new vertex. -/
private theorem ancestor_last {i : Nat} (ancestor : Ancestor parent i above) :
    Ancestor (Function.update parent visits.length above) i visits.length := by
  refine .above (List.length_pos_iff.mpr progress.begun) ?_
  rw [Function.update_self]
  exact ancestor_extend progress ancestor popped.above_lt

/-- An entry that waits was found from a vertex met before the new one. -/
private theorem found_before {entry : Nat × Nat} {i : Nat} (member : entry ∈ rest)
    (atI : (visits.map Prod.fst ++ [x])[i]? = some entry.2) :
    (visits.map Prod.fst)[i]? = some entry.2 := by
  obtain ⟨_, j, atJ, _⟩ := progress.pending entry (popped.waiting entry member)
  have jWithin := lt_length_of_getElem? atJ
  rw [List.length_map] at jWithin
  rwa [position_unique (popped.distinct_extend progress.distinct) atI
    (by rw [getElem?_old x jWithin, atJ])]

/-- The tree grows by one vertex below a vertex on the path down to the last. -/
private theorem tree_extend :
    DepthFirst (visits.length + 1) (Function.update parent visits.length above)
      (EdgeAt graph direction (visits.map Prod.fst ++ [x])) := by
  have sameLength : (visits.map Prod.fst).length = visits.length := List.length_map _
  have nonempty := List.length_pos_iff.mpr progress.begun
  have aboveWithin := popped.above_lt
  have atEnd := getElem?_last visits x
  refine
    { edge_lt := ?_
      parent_lt := ?_
      parent_edge := ?_
      parent_spine := ?_
      forward := ?_ }
  · rintro a b ⟨u, v, atA, atB, _⟩
    have aWithin := lt_length_of_getElem? atA
    have bWithin := lt_length_of_getElem? atB
    simp only [List.length_append, List.length_singleton, sameLength] at aWithin bWithin
    exact ⟨aWithin, bWithin⟩
  · intro b positive within
    rcases Nat.lt_succ_iff_lt_or_eq.mp within with before | rfl
    · rw [extend_parent above before]
      exact progress.tree.parent_lt positive before
    · rwa [Function.update_self]
  · intro b positive within
    rcases Nat.lt_succ_iff_lt_or_eq.mp within with before | rfl
    · rw [extend_parent above before]
      have parentBefore := progress.tree.parent_lt positive before
      rw [EdgeAt.append_iff (by omega) (by omega)]
      exact progress.tree.parent_edge positive before
    · rw [Function.update_self]
      exact ⟨p, x, by rw [getElem?_old x aboveWithin, popped.position], atEnd, popped.edge⟩
  · intro b within
    rcases Nat.lt_succ_iff_lt_or_eq.mp within with before | last
    · rw [extend_parent above before]
      exact ancestor_extend progress (progress.tree.parent_spine before) (by omega)
    · rw [last, Function.update_self]
      have previous : b = visits.length - 1 := by omega
      rw [previous]
      exact ancestor_extend progress popped.spine (by omega)
  · rintro a b before ⟨u, v, atA, atB, step⟩
    have bWithin := lt_length_of_getElem? atB
    simp only [List.length_append, List.length_singleton, sameLength] at bWithin
    rw [getElem?_old x (by omega)] at atA
    rcases Nat.lt_succ_iff_lt_or_eq.mp bWithin with inside | rfl
    · rw [getElem?_old x inside] at atB
      exact ancestor_extend progress (progress.tree.forward before ⟨u, v, atA, atB, step⟩) inside
    · obtain rfl : v = x := by
        rw [atEnd] at atB
        exact (Option.some.inj atB).symm
      refine .above (by omega) ?_
      rw [Function.update_self]
      exact ancestor_extend progress (popped.earlier progress atA step) aboveWithin

/-- The parent of every vertex met, the new one included. -/
private theorem parents_extend {i : Nat} {visit : Nat × Nat}
    (atI : (visits ++ [(x, p)])[i]? = some visit) :
    (visits.map Prod.fst ++ [x])[Function.update parent visits.length above i]? =
      some visit.2 := by
  rcases getElem?_concat_eq_some.mp atI with before | ⟨rfl, rfl⟩
  · have atParent := progress.parents i visit before
    have parentWithin := lt_length_of_getElem? atParent
    rw [List.length_map] at parentWithin
    rw [extend_parent above (lt_length_of_getElem? before), getElem?_old x parentWithin, atParent]
  · rw [Function.update_self, getElem?_old x popped.above_lt, popped.position]

/-- Entries found from the new vertex go on top of the entries that wait. -/
private theorem ordered_extend (fresh : List Nat) :
    ((fresh.map fun next => (next, x)) ++ rest).Pairwise fun upper lower => ∀ i j,
      (visits.map Prod.fst ++ [x])[i]? = some upper.2 →
        (visits.map Prod.fst ++ [x])[j]? = some lower.2 →
          Ancestor (Function.update parent visits.length above) j i := by
  have distinct := popped.distinct_extend progress.distinct
  rw [List.pairwise_append, List.pairwise_map]
  refine ⟨List.pairwise_of_forall ?_, ?_, ?_⟩
  · intro upper lower i j atI atJ
    rw [position_unique distinct atI atJ]
    exact .self j
  · refine popped.ordered.imp_of_mem ?_
    intro upper lower upperMember lowerMember order i j atI atJ
    have iOld := popped.found_before progress upperMember atI
    have jOld := popped.found_before progress lowerMember atJ
    have iWithin := lt_length_of_getElem? iOld
    rw [List.length_map] at iWithin
    exact ancestor_extend progress (order i j iOld jOld) iWithin
  · intro upper upperMember lower lowerMember i j atI atJ
    obtain ⟨next, _, rfl⟩ := List.mem_map.mp upperMember
    rw [position_unique distinct atI (getElem?_last visits x)]
    exact popped.ancestor_last progress
      (popped.below lower lowerMember j (popped.found_before progress lowerMember atJ))

/-- A neighbour of a vertex met before is met, or waits below. -/
private theorem closed_before {v w : Nat} (before : v ∈ visits.map Prod.fst)
    (step : w ∈ graph.neighbours direction v) :
    w ∈ visits.map Prod.fst ++ [x] ∨ graph.size ≤ w ∨ (w, v) ∈ rest := by
  rcases progress.closed v before w step with isMet | beyond | waiting
  · exact .inl (List.mem_append_left _ isMet)
  · exact .inr (.inl beyond)
  · rcases popped.dropped _ waiting with isMet | beyond | isTop | isBelow
    · exact .inl (List.mem_append_left _ isMet)
    · exact .inr (.inl beyond)
    · obtain rfl : w = x := congrArg Prod.fst isTop
      exact .inl (List.mem_append_right _ (List.mem_singleton_self w))
    · exact .inr (.inr isBelow)

omit popped in
private theorem visited_insert (x v : Nat) : (cursor.visited.insert x).contains v = true ↔
    v ∈ visits.map Prod.fst ++ [x] ∨ graph.size ≤ v := by
  rw [Visited.contains_insert_iff, progress.visited v, List.mem_append, List.mem_singleton,
    eq_comm]
  tauto

end Popped

/-- One more visit keeps the invariant, with the tree extended by the vertex
visited. -/
theorem Progress.next (progress : Progress graph direction parent visits cursor)
    {visit : Nat × Nat} {later : Preorder α}
    (found : cursor.next? = some (visit, later)) :
    ∃ above, Progress graph direction (Function.update parent visits.length above)
      (visits ++ [visit]) later := by
  obtain ⟨x, p⟩ := visit
  simp only [next?] at found
  split at found
  · cases found
  rename_i x' p' rest isPopped
  simp only [Option.some.injEq, Prod.mk.injEq] at found
  obtain ⟨⟨rfl, rfl⟩, rfl⟩ := found
  obtain ⟨above, popped⟩ := progress.popped isPopped
  have met : (visits ++ [(x', p')]).map Prod.fst = visits.map Prod.fst ++ [x'] := by simp
  refine ⟨above,
    { sameGraph := progress.sameGraph
      sameDirection := progress.sameDirection
      begun := by simp
      visited := ?_
      distinct := ?_
      within := ?_
      tree := ?_
      parents := ?_
      pending := ?_
      ordered := ?_
      closed := ?_ }⟩
  · rw [met]
    exact Popped.visited_insert progress x'
  · rw [met]
    exact popped.distinct_extend progress.distinct
  · rw [met]
    intro v member
    rcases List.mem_append.mp member with old | new
    · exact progress.within v old
    · rw [List.mem_singleton.mp new]
      exact popped.within
  · rw [met, List.length_append, List.length_singleton]
    exact popped.tree_extend progress
  · rw [met]
    intro i visit atI
    exact popped.parents_extend progress atI
  · intro entry member
    rw [met, List.length_append, List.length_singleton, Nat.add_sub_cancel]
    rcases List.mem_append.mp member with isFound | isBelow
    · simp only [List.mem_map, List.mem_filter, progress.sameGraph,
        progress.sameDirection] at isFound
      obtain ⟨next, ⟨step, _⟩, rfl⟩ := isFound
      exact ⟨step, visits.length, Popped.getElem?_last visits x', .self _⟩
    · obtain ⟨step, i, atI, _⟩ := progress.pending entry (popped.waiting entry isBelow)
      have iWithin := lt_length_of_getElem? atI
      rw [List.length_map] at iWithin
      exact ⟨step, i, by rw [Popped.getElem?_old x' iWithin, atI],
        popped.ancestor_last progress (popped.below entry isBelow i atI)⟩
  · rw [met]
    exact popped.ordered_extend progress _
  · rw [met]
    intro v member w step
    rcases List.mem_append.mp member with before | new
    · rcases popped.closed_before progress before step with isMet | beyond | isBelow
      · exact .inl isMet
      · exact .inr (.inl beyond)
      · exact .inr (.inr (List.mem_append_right _ isBelow))
    · obtain rfl : v = x' := List.mem_singleton.mp new
      by_cases isMet : (cursor.visited.insert v).contains w = true
      · rcases (Popped.visited_insert progress v w).mp isMet with isMet | beyond
        · exact .inl isMet
        · exact .inr (.inl beyond)
      · refine .inr (.inr (List.mem_append_left _ ?_))
        simp only [List.mem_map, List.mem_filter, progress.sameGraph, progress.sameDirection]
        exact ⟨w, ⟨step, by simpa using isMet⟩, rfl⟩

end Step

/-! ## Complete traversals -/

/-- The visits of a complete traversal from a start vertex, with the
depth-first tree they form on positions. -/
structure Complete (graph : Digraph α) (direction : Direction) (start : Nat)
    (parent : Nat → Nat) (visits : List (Nat × Nat)) : Prop where
  first : visits[0]? = some (start, start)
  distinct : (visits.map Prod.fst).Nodup
  tree : DepthFirst visits.length parent (EdgeAt graph direction (visits.map Prod.fst))
  parents : ∀ i visit, visits[i]? = some visit →
    (visits.map Prod.fst)[parent i]? = some visit.2
  met_iff : ∀ v, v ∈ visits.map Prod.fst ↔ graph.Reaches direction start v

variable {graph : Digraph α} {direction : Direction}

/-- A run of visits keeps the invariant, and is shorter than asked for only when
nothing is left. -/
theorem Progress.take (count : Nat) {parent : Nat → Nat} {visits : List (Nat × Nat)}
    {cursor : Preorder α} (progress : Progress graph direction parent visits cursor) :
    ∃ parent', Progress graph direction parent' (visits ++ (cursor.take count).1)
        (cursor.take count).2 ∧
      ((cursor.take count).1.length < count → (cursor.take count).2.next? = none) := by
  induction count generalizing parent visits cursor with
  | zero =>
      refine ⟨parent, ?_, fun short => absurd short (Nat.not_lt_zero _)⟩
      rw [Preorder.take, List.append_nil]
      exact progress
  | succ count inductionHypothesis =>
      rw [Preorder.take]
      split
      · rename_i exhausted
        exact ⟨parent, by rwa [List.append_nil], fun _ => exhausted⟩
      · rename_i visit later found
        obtain ⟨above, next⟩ := progress.next found
        obtain ⟨parent', rest, ended⟩ := inductionHypothesis next
        refine ⟨parent', ?_, fun short => ended (Nat.lt_of_succ_lt_succ short)⟩
        rw [List.append_assoc, List.singleton_append] at rest
        exact rest

/-- Visits do not repeat, so there are at most as many as vertices. -/
theorem Progress.length_le {parent : Nat → Nat} {visits : List (Nat × Nat)}
    {cursor : Preorder α} (progress : Progress graph direction parent visits cursor) :
    visits.length ≤ graph.size := by
  have bound := length_le_of_lt progress.distinct progress.within
  rwa [List.length_map] at bound

/-- When nothing is left, the vertices met are closed under edges. -/
theorem Progress.closed_of_exhausted {parent : Nat → Nat} {visits : List (Nat × Nat)}
    {cursor : Preorder α} (contained : graph.Contained direction)
    (progress : Progress graph direction parent visits cursor)
    (exhausted : visits.length = graph.size ∨ cursor.next? = none) {v w : Nat}
    (met : v ∈ visits.map Prod.fst) (edge : w ∈ graph.neighbours direction v) :
    w ∈ visits.map Prod.fst := by
  have within := contained v w edge
  rcases exhausted with full | ended
  · exact mem_of_length_eq progress.distinct progress.within (by rw [List.length_map, full]) within
  · have popped : pop? cursor.visited cursor.stack = none := by
      unfold next? at ended
      split at ended
      · assumption
      · cases ended
    rcases progress.closed v met w edge with isMet | beyond | waiting
    · exact isMet
    · omega
    · rcases (progress.visited w).mp (pop?_eq_none popped _ waiting) with isMet | beyond
      · exact isMet
      · omega

/-- What is met can be reached: every vertex comes with a parent met before. -/
theorem reaches_of_depthFirst {start : Nat} {parent : Nat → Nat} {met : List Nat}
    (tree : DepthFirst met.length parent (EdgeAt graph direction met))
    (first : met[0]? = some start) (i : Nat) {v : Nat} (atI : met[i]? = some v) :
    graph.Reaches direction start v := by
  induction i using Nat.strongRecOn generalizing v with
  | ind i inductionHypothesis =>
      rcases Nat.eq_zero_or_pos i with rfl | positive
      · rw [first] at atI
        cases atI
        exact Digraph.Reaches.refl start
      · have within := lt_length_of_getElem? atI
        obtain ⟨u, w, atParent, atI', edge⟩ := tree.parent_edge positive within
        rw [atI] at atI'
        cases atI'
        exact (inductionHypothesis _ (tree.parent_lt positive within) atParent).edge edge

/-- A traversal asked for as many visits as the graph has vertices is complete. -/
theorem exists_complete_toList (contained : graph.Contained direction) {start : Nat}
    (within : start < graph.size) :
    ∃ parent, Complete graph direction start parent
      (Preorder.start graph direction start).toList := by
  obtain ⟨cursor, found, progress⟩ :
      ∃ cursor, (Preorder.start graph direction start).next? = some ((start, start), cursor) ∧
        Progress graph direction (fun _ => 0) [(start, start)] cursor := progress_first within
  obtain ⟨count, sizeEq⟩ : ∃ count, graph.size = count + 1 := ⟨graph.size - 1, by omega⟩
  obtain ⟨parent, final, ended⟩ := progress.take count
  have visitsEq : (Preorder.start graph direction start).toList =
      [(start, start)] ++ (cursor.take count).1 := by
    show (Preorder.take graph.size (Preorder.start graph direction start)).1 = _
    rw [sizeEq, Preorder.take, found]
    rfl
  rw [visitsEq]
  have sameLength (visits : List (Nat × Nat)) :
      (visits.map Prod.fst).length = visits.length := List.length_map _
  have tree := final.tree
  rw [← sameLength] at tree
  refine ⟨parent, rfl, final.distinct, final.tree, final.parents, fun v => ⟨?_, ?_⟩⟩
  · intro met
    obtain ⟨i, iWithin, atI⟩ := List.getElem_of_mem met
    exact reaches_of_depthFirst tree rfl i
      (List.getElem?_eq_some_iff.mpr ⟨iWithin, atI⟩)
  · intro reaches
    have exhausted : ([(start, start)] ++ (cursor.take count).1).length = graph.size ∨
        (cursor.take count).2.next? = none := by
      have bound := final.length_le
      rw [List.length_append, List.length_singleton] at bound ⊢
      by_cases short : (cursor.take count).1.length < count
      · exact .inr (ended short)
      · exact .inl (by omega)
    rw [Digraph.reaches_iff] at reaches
    induction reaches with
    | refl => simp
    | tail _ edge inductionHypothesis =>
        exact final.closed_of_exhausted contained exhausted inductionHypothesis edge

end Preorder

end FlowRegions
