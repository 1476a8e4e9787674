import FlowRegions.Proofs.Renaming.Graph
import FlowRegions.Proofs.Structuring.Flow

/-!
Contract: traversals and flow analysis under new names.

A traversal explores neighbours in the order of the edges, which names follow, so
that it meets the same vertices in the same order.  Preorder numbers, parents and
the ends of subtrees are then the same numbers; dominance is a statement about
walks.

Owns:
- the preorder and the postorder of a renamed graph;
- every query of `Analysis` under new names.
-/

namespace FlowRegions

open FlowRegions.Digraph (root terminator)

/-- A cursor that has come to its end produces nothing more. -/
theorem take_of_ended {ι κ : Type} {next? : κ → Option (ι × κ)} {take : Nat → κ → List ι × κ}
    (zero : ∀ cursor, take 0 cursor = ([], cursor))
    (stop : ∀ {cursor}, next? cursor = none → ∀ count, take (count + 1) cursor = ([], cursor))
    (go : ∀ {cursor item later}, next? cursor = some (item, later) → ∀ count,
      take (count + 1) cursor = (item :: (take count later).1, (take count later).2))
    {count more : Nat} {cursor : κ} (ended : next? (take count cursor).2 = none)
    (longer : count ≤ more) : take more cursor = take count cursor := by
  induction count generalizing more cursor with
  | zero =>
      rw [zero] at ended ⊢
      cases more with
      | zero => exact zero cursor
      | succ more => exact stop ended more
  | succ count inductionHypothesis =>
      obtain ⟨more, rfl⟩ : ∃ less, more = less + 1 := ⟨more - 1, by omega⟩
      cases found : next? cursor with
      | none => rw [stop found, stop found]
      | some produced =>
          rw [go found] at ended ⊢
          rw [go found, inductionHypothesis ended (Nat.le_of_succ_le_succ longer)]

namespace Preorder

variable {α : Type} {graph : Digraph α}

theorem take_stop {cursor : Preorder α} (ended : cursor.next? = none) (count : Nat) :
    cursor.take (count + 1) = ([], cursor) := by
  rw [take, ended]

theorem take_go {cursor later : Preorder α} {visit : Nat × Nat}
    (found : cursor.next? = some (visit, later)) (count : Nat) :
    cursor.take (count + 1) = (visit :: (later.take count).1, (later.take count).2) := by
  rw [take, found]

/-- As many visits as there are vertices leave nothing to visit. -/
theorem next?_take_size {direction : Direction} {start : Nat} (within : start < graph.size) :
    ((Preorder.start graph direction start).take graph.size).2.next? = none := by
  obtain ⟨cursor, found, progress⟩ : ∃ cursor,
      (Preorder.start graph direction start).next? = some ((start, start), cursor) ∧
        Progress graph direction (fun _ => 0) [(start, start)] cursor := progress_first within
  obtain ⟨count, sizeEq⟩ : ∃ count, graph.size = count + 1 := ⟨graph.size - 1, by omega⟩
  rw [sizeEq, take_go found]
  obtain ⟨parent, final, ended⟩ := progress.take count
  by_cases short : (cursor.take count).1.length < count
  · exact ended short
  · cases next : (cursor.take count).2.next? with
    | none => rfl
    | some produced =>
        obtain ⟨above, further⟩ := final.next next
        have bound := further.length_le
        simp only [List.length_append, List.length_singleton] at bound
        omega

end Preorder

namespace Postorder

variable {α : Type} {graph : Digraph α} {direction : Direction} {start : Nat}

theorem take_stop {cursor : Postorder α} (ended : cursor.next? = none) (count : Nat) :
    cursor.take (count + 1) = ([], cursor) := by
  rw [take, ended]

theorem take_go {cursor later : Postorder α} {v : Nat}
    (found : cursor.next? = some (v, later)) (count : Nat) :
    cursor.take (count + 1) = (v :: (later.take count).1, (later.take count).2) := by
  rw [take, found]

/-- Once the fuel of a descent exceeds what is left to meet, more changes nothing. -/
theorem Progress.descend_of_le (consistent : graph.Consistent) {produced : List Nat}
    {visited : Visited} {path : List (Nat × List Nat)} {v : Nat} {remaining : List Nat}
    (progress : Progress graph direction start produced visited ((v, remaining) :: path))
    {fuel more : Nat} (enough : graph.size ≤ fuel + path.length) (longer : fuel ≤ more) :
    Postorder.descend graph direction more visited v remaining path =
      Postorder.descend graph direction fuel visited v remaining path := by
  induction fuel generalizing visited v remaining path more with
  | zero =>
      have bound := progress.length_le
      rw [List.length_cons] at bound
      omega
  | succ fuel inductionHypothesis =>
      obtain ⟨more, rfl⟩ : ∃ less, more = less + 1 := ⟨more - 1, by omega⟩
      rw [Postorder.descend, Postorder.descend]
      cases found : unmet? visited remaining with
      | none => rfl
      | some next =>
          refine inductionHypothesis (progress.down consistent found) ?_
            (Nat.le_of_succ_le_succ longer)
          rw [List.length_cons]
          omega

/-- As many vertices as there are leave none to produce. -/
theorem Progress.next?_take_size (consistent : graph.Consistent) {visited : Visited}
    {path : List (Nat × List Nat)}
    (progress : Progress graph direction start [] visited path) :
    (Postorder.take graph.size ⟨graph, direction, visited, path⟩).2.next? = none := by
  obtain ⟨final, ended⟩ := progress.take consistent graph.size
  have bound := final.length_le
  rw [List.nil_append] at bound
  have finished : (Postorder.take graph.size ⟨graph, direction, visited, path⟩).2.path = [] := by
    by_cases short :
        (Postorder.take graph.size ⟨graph, direction, visited, path⟩).1.length < graph.size
    · exact ended short
    · rw [← List.length_eq_zero_iff]
      omega
  rw [next?, finished]

end Postorder

namespace Digraph.Renamed

variable {α β : Type} {name : Nat → Nat} {relabel : α → β} {graph : Digraph α} {other : Digraph β}
  (renamed : Renamed name relabel graph other)
include renamed

/-- The second graph is no smaller than the first. -/
theorem size_le : graph.size ≤ other.size := by
  have within (w : Nat) (member : w ∈ (List.range graph.size).map name) : w < other.size := by
    obtain ⟨v, isOld, rfl⟩ := List.mem_map.mp member
    exact renamed.lt_size_iff.mpr (List.mem_range.mp isOld)
  have bound := length_le_of_lt (List.nodup_range.map renamed.injective) within
  rwa [List.length_map, List.length_range] at bound

/-! ## Preorder -/

omit renamed in
theorem pop?_name {visited visited' : Visited}
    (same : ∀ v, visited'.contains (name v) = visited.contains v) (stack : List (Nat × Nat)) :
    Preorder.pop? visited' (stack.map (Prod.map name name)) =
      (Preorder.pop? visited stack).map
        (Prod.map (Prod.map name name) (List.map (Prod.map name name))) := by
  induction stack with
  | nil => rfl
  | cons entry rest inductionHypothesis =>
      obtain ⟨v, parent⟩ := entry
      rw [List.map_cons, Prod.map, Preorder.pop?, Preorder.pop?, same]
      split
      · exact inductionHypothesis
      · rfl

theorem contains_insert_name {visited visited' : Visited}
    (same : ∀ v, visited'.contains (name v) = visited.contains v) (next v : Nat) :
    (visited'.insert (name next)).contains (name v) = (visited.insert next).contains v := by
  rw [Visited.contains_insert, Visited.contains_insert, same]
  simp only [renamed.name_inj]

theorem contains_empty_name (v : Nat) :
    (Visited.empty other.size).contains (name v) = (Visited.empty graph.size).contains v := by
  rw [Visited.contains_empty, Visited.contains_empty, decide_eq_decide, ← Nat.not_lt,
    renamed.lt_size_iff, Nat.not_lt]

/-- Preorder visits follow the names. -/
theorem take_preorder (count : Nat) {visited visited' : Visited}
    (same : ∀ v, visited'.contains (name v) = visited.contains v) (stack : List (Nat × Nat)) :
    (Preorder.take count ⟨other, .forward, visited', stack.map (Prod.map name name)⟩).1 =
      (Preorder.take count ⟨graph, .forward, visited, stack⟩).1.map (Prod.map name name) := by
  induction count generalizing visited visited' stack with
  | zero => rfl
  | succ count inductionHypothesis =>
      cases popped : Preorder.pop? visited stack with
      | none =>
          have ended : (⟨graph, .forward, visited, stack⟩ : Preorder α).next? = none := by
            rw [Preorder.next?, popped]
          have ended' : (⟨other, .forward, visited', stack.map (Prod.map name name)⟩ :
              Preorder β).next? = none := by
            rw [Preorder.next?, pop?_name same, popped]
            rfl
          rw [Preorder.take_stop ended, Preorder.take_stop ended']
          rfl
      | some first =>
          obtain ⟨⟨v, parent⟩, rest⟩ := first
          have after := renamed.contains_insert_name same v
          have neighbours : other.neighbours .forward (name v) =
              (graph.neighbours .forward v).map name := renamed.successors_name v
          have found : (((graph.neighbours .forward v).map name).filter fun next =>
                !(visited'.insert (name v)).contains next).map (fun next => (next, name v)) ++
                rest.map (Prod.map name name) =
              (((graph.neighbours .forward v).filter fun next =>
                !(visited.insert v).contains next).map (fun next => (next, v)) ++
                rest).map (Prod.map name name) := by
            rw [List.filter_map, List.map_append, List.map_map, List.map_map]
            simp only [Function.comp_def, after, Prod.map]
          have next : (⟨graph, .forward, visited, stack⟩ : Preorder α).next? = some ((v, parent),
              ⟨graph, .forward, visited.insert v,
                ((graph.neighbours .forward v).filter fun next =>
                  !(visited.insert v).contains next).map (fun next => (next, v)) ++ rest⟩) := by
            rw [Preorder.next?, popped]
          have next' : (⟨other, .forward, visited', stack.map (Prod.map name name)⟩ :
              Preorder β).next? = some ((name v, name parent),
              ⟨other, .forward, visited'.insert (name v),
                (((graph.neighbours .forward v).filter fun next =>
                  !(visited.insert v).contains next).map (fun next => (next, v)) ++
                  rest).map (Prod.map name name)⟩) := by
            rw [Preorder.next?, pop?_name same, popped, ← found, ← neighbours]
            rfl
          rw [Preorder.take_go next, Preorder.take_go next', inductionHypothesis after]
          rfl

theorem preorder_name :
    (Preorder.start other .forward root).toList =
      (Preorder.start graph .forward root).toList.map (Prod.map name name) := by
  have within : root < graph.size := start_lt_size renamed.consistent .forward
  have within' : root < other.size := start_lt_size renamed.consistent' .forward
  have ended : ((Preorder.start graph .forward root).take graph.size).2.next? = none :=
    Preorder.next?_take_size within
  have longer := take_of_ended (fun _ => rfl) Preorder.take_stop Preorder.take_go ended
    renamed.size_le
  have stack : [(root, root)] = [(root, root)].map (Prod.map name name) := by
    simp [Prod.map, renamed.name_root]
  unfold Preorder.toList
  unfold Preorder.start at longer ⊢
  rw [if_pos within] at longer ⊢
  rw [if_pos within']
  have visits := renamed.take_preorder other.size renamed.contains_empty_name [(root, root)]
  rw [← stack] at visits
  refine visits.trans ?_
  exact congrArg (fun outcome => outcome.1.map (Prod.map name name)) longer

/-! ## Postorder -/

omit renamed in
theorem unmet?_name {visited visited' : Visited}
    (same : ∀ v, visited'.contains (name v) = visited.contains v) (remaining : List Nat) :
    Postorder.unmet? visited' (remaining.map name) =
      (Postorder.unmet? visited remaining).map (Prod.map name (List.map name)) := by
  induction remaining with
  | nil => rfl
  | cons next rest inductionHypothesis =>
      rw [List.map_cons, Postorder.unmet?, Postorder.unmet?, same]
      split
      · exact inductionHypothesis
      · rfl

/-- A descent follows the names. -/
theorem descend_name (fuel : Nat) {visited visited' : Visited}
    (same : ∀ v, visited'.contains (name v) = visited.contains v) (v : Nat) (remaining : List Nat)
    (path : List (Nat × List Nat)) :
    let outcome := Postorder.descend graph .forward fuel visited v remaining path
    let outcome' := Postorder.descend other .forward fuel visited' (name v) (remaining.map name)
      (path.map (Prod.map name (List.map name)))
    outcome'.1 = name outcome.1 ∧
      (∀ v, outcome'.2.1.contains (name v) = outcome.2.1.contains v) ∧
      outcome'.2.2 = outcome.2.2.map (Prod.map name (List.map name)) := by
  induction fuel generalizing visited visited' v remaining path with
  | zero => exact ⟨rfl, same, rfl⟩
  | succ fuel inductionHypothesis =>
      rw [Postorder.descend, Postorder.descend, unmet?_name same]
      cases Postorder.unmet? visited remaining with
      | none => exact ⟨rfl, same, rfl⟩
      | some found =>
          obtain ⟨next, rest⟩ := found
          have neighbours : other.neighbours .forward (name next) =
              (graph.neighbours .forward next).map name := renamed.successors_name next
          dsimp only [Option.map_some, Prod.map]
          rw [neighbours]
          exact inductionHypothesis (renamed.contains_insert_name same next) next _
            ((v, rest) :: path)

/-- Postorder visits follow the names. -/
theorem take_postorder (count : Nat) {start : Nat} {produced : List Nat}
    {visited visited' : Visited} {path : List (Nat × List Nat)}
    (progress : Postorder.Progress graph .forward start produced visited path)
    (same : ∀ v, visited'.contains (name v) = visited.contains v) :
    (Postorder.take count
        ⟨other, .forward, visited', path.map (Prod.map name (List.map name))⟩).1 =
      (Postorder.take count ⟨graph, .forward, visited, path⟩).1.map name := by
  induction count generalizing produced visited visited' path with
  | zero => rfl
  | succ count inductionHypothesis =>
      cases path with
      | nil => rfl
      | cons entry path =>
          obtain ⟨v, remaining⟩ := entry
          have longer : graph.size + 1 ≤ other.size + 1 := Nat.succ_le_succ renamed.size_le
          have fuelled : graph.size ≤ graph.size + 1 + path.length := by omega
          have enough := progress.descend_of_le renamed.consistent fuelled longer
          have after := progress.descend renamed.consistent (graph.size + 1) (by omega)
          obtain ⟨finished, marked, rest⟩ := renamed.descend_name (other.size + 1) same v remaining
            path
          rw [enough] at finished marked rest
          have step := inductionHypothesis after marked
          rw [← rest] at step
          exact congrArg₂ List.cons finished step

theorem postorder_name :
    (Postorder.start other .forward root).toList =
      (Postorder.start graph .forward root).toList.map name := by
  have within : root < graph.size := start_lt_size renamed.consistent .forward
  have within' : root < other.size := start_lt_size renamed.consistent' .forward
  have begun : Postorder.Progress graph .forward root [] _ _ := Postorder.progress_start within
  have longer := take_of_ended (fun _ => rfl) Postorder.take_stop Postorder.take_go
    (begun.next?_take_size renamed.consistent) renamed.size_le
  have marked (v : Nat) : ((Visited.empty other.size).insert root).contains (name v) =
      ((Visited.empty graph.size).insert root).contains v := by
    have after := renamed.contains_insert_name renamed.contains_empty_name root v
    rwa [renamed.name_root] at after
  have path : [(root, other.neighbours .forward root)] =
      [(root, graph.neighbours .forward root)].map (Prod.map name (List.map name)) := by
    have edges : other.neighbours .forward (name root) =
        (graph.neighbours .forward root).map name :=
      renamed.successors_name root
    rw [renamed.name_root] at edges
    simp [Prod.map, renamed.name_root, edges]
  unfold Postorder.toList Postorder.start
  rw [if_pos within, if_pos within', path]
  dsimp only
  rw [renamed.take_postorder other.size begun marked]
  exact congrArg (fun outcome : List Nat × Postorder α => outcome.1.map name) longer

end Digraph.Renamed

/-! ## Numbers -/

namespace Numbering

variable {name : Nat → Nat} {size size' : Nat}

structure Follows (name : Nat → Nat) (size size' : Nat) (numbering numbering' : Numbering) :
    Prop where
  order_size : numbering.order.size = size
  order_size' : numbering'.order.size = size'
  parent_size : numbering.parent.size = size
  parent_size' : numbering'.parent.size = size'
  sequence_eq : numbering'.sequence.toList = numbering.sequence.toList.map name
  order?_eq : ∀ v, numbering'.order? (name v) = numbering.order? v
  parentOf_eq : ∀ v, numbering'.parentOf (name v) = name (numbering.parentOf v)

theorem follows_empty (name : Nat → Nat) (size size' : Nat) :
    Follows name size size' (ofVisits size []) (ofVisits size' []) where
  order_size := by simp [ofVisits]
  order_size' := by simp [ofVisits]
  parent_size := by simp [ofVisits]
  parent_size' := by simp [ofVisits]
  sequence_eq := by simp [ofVisits]
  order?_eq := by
    have unnumbered (size v : Nat) : (ofVisits size []).order? v = none := by
      by_cases within : v < size <;> simp [ofVisits, order?, within]
    intro v
    rw [unnumbered, unnumbered]
  parentOf_eq := by
    have itself (size v : Nat) : (ofVisits size []).parentOf v = v := by
      by_cases within : v < size <;> simp [ofVisits, parentOf, Array.getD, within]
    intro v
    rw [itself, itself]

theorem follows_ofVisits (injective : Function.Injective name)
    (within : ∀ v, name v < size' ↔ v < size) (visits : List (Nat × Nat)) :
    Follows name size size' (ofVisits size visits)
      (ofVisits size' (visits.map (Prod.map name name))) := by
  induction visits using List.reverseRecOn with
  | nil => exact follows_empty name size size'
  | append_singleton visits visit before =>
      obtain ⟨v, parent⟩ := visit
      rw [List.map_append]
      unfold ofVisits at before ⊢
      rw [List.foldl_append, List.foldl_append]
      generalize List.foldl _ _ visits = numbering at before ⊢
      generalize List.foldl _ _ (visits.map _) = numbering' at before ⊢
      have count : numbering'.sequence.size = numbering.sequence.size := by
        rw [← Array.length_toList, before.sequence_eq, List.length_map, Array.length_toList]
      exact
        { order_size := by simp [before.order_size]
          order_size' := by simp [before.order_size']
          parent_size := by simp [before.parent_size]
          parent_size' := by simp [before.parent_size']
          sequence_eq := by simp [before.sequence_eq, Prod.map]
          order?_eq := by
            intro w
            have old := before.order?_eq w
            unfold order? at old ⊢
            simp only [List.map_cons, List.map_nil, List.foldl_cons, List.foldl_nil, Prod.map,
              Array.getElem?_setIfInBounds, injective.eq_iff, before.order_size,
              before.order_size', within, count]
            split
            · rfl
            · exact old
          parentOf_eq := by
            intro w
            have old := before.parentOf_eq w
            unfold parentOf at old ⊢
            simp only [Array.getD_eq_getD_getElem?] at old ⊢
            simp only [List.map_cons, List.map_nil, List.foldl_cons, List.foldl_nil, Prod.map,
              Array.getElem?_setIfInBounds, injective.eq_iff, before.parent_size,
              before.parent_size', within]
            split
            · split <;> rfl
            · exact old }

variable {numbering numbering' : Numbering}
  (follows : Follows name size size' numbering numbering')
include follows

/-- The ends of subtrees are the same numbers. -/
theorem Follows.subtreeEnds_eq (injective : Function.Injective name)
    (within : ∀ v, name v < size' ↔ v < size) (v : Nat) :
    (Analysis.subtreeEnds numbering').getD (name v) 0 =
      (Analysis.subtreeEnds numbering).getD v 0 := by
  have raised (vertices : List Nat) {last last' : Array Nat} (sized : last.size = size)
      (sized' : last'.size = size') (same : ∀ v, last'.getD (name v) 0 = last.getD v 0) :
      ((vertices.map name).foldl (Analysis.raiseParent numbering') last').getD (name v) 0 =
        (vertices.foldl (Analysis.raiseParent numbering) last).getD v 0 := by
    induction vertices generalizing last last' with
    | nil => exact same v
    | cons next rest inductionHypothesis =>
        refine inductionHypothesis (by simp [Analysis.raiseParent, sized])
          (by simp [Analysis.raiseParent, sized']) fun w => ?_
        have old := same w
        unfold Analysis.raiseParent
        dsimp only
        rw [follows.parentOf_eq, same, same]
        simp only [Array.getD_eq_getD_getElem?] at old ⊢
        simp only [Array.getElem?_setIfInBounds, injective.eq_iff, sized, sized', within]
        split
        · split <;> rfl
        · exact old
  unfold Analysis.subtreeEnds
  rw [follows.sequence_eq, ← List.map_drop, ← List.map_reverse]
  refine raised _ (by simp [follows.order_size]) (by simp [follows.order_size']) fun w => ?_
  have number {numbering : Numbering} (v : Nat) :
      (numbering.order.map fun number => number.getD 0).getD v 0 =
        (numbering.order? v).getD 0 := by
    rw [Array.getD_eq_getD_getElem?, Array.getElem?_map, order?]
    cases numbering.order[v]? <;> rfl
  rw [number, number, follows.order?_eq]

end Numbering

/-! ## Analysis -/

namespace Digraph.Renamed

variable {name : Nat → Nat} {relabel : Node → Node} {graph other : RegionGraph}
  (renamed : Renamed name relabel graph other) {u v : Nat}
include renamed

theorem follows_numbering : Numbering.Follows name graph.size other.size
    (Analysis.ofGraph graph).dominators.numbering
    (Analysis.ofGraph other).dominators.numbering := by
  have visits := Numbering.follows_ofVisits renamed.injective (fun v => renamed.lt_size_iff)
    (Preorder.start graph .forward root).toList
  rw [← renamed.preorder_name] at visits
  exact visits

theorem order?_name : (Analysis.ofGraph other).dominators.order? (name v) =
    (Analysis.ofGraph graph).dominators.order? v :=
  renamed.follows_numbering.order?_eq v

theorem tried_name :
    (Analysis.ofGraph other).postorder = (Analysis.ofGraph graph).postorder.map name := by
  unfold Analysis.ofGraph
  dsimp only
  rw [renamed.postorder_name, List.filter_map]
  congr 1
  refine List.filter_congr fun v _ => ?_
  simp only [Function.comp_def, bne, beq_eq_decide, renamed.name_eq_root,
    renamed.name_eq_terminator]

theorem descends_name : (Analysis.ofGraph other).descends (name v) (name u) =
    (Analysis.ofGraph graph).descends v u := by
  have ends := renamed.follows_numbering.subtreeEnds_eq renamed.injective
    (fun v => renamed.lt_size_iff) u
  unfold Analysis.descends
  rw [renamed.order?_name, renamed.order?_name]
  have last : (Analysis.ofGraph other).last.getD (name u) 0 =
      (Analysis.ofGraph graph).last.getD u 0 := ends
  rw [last]

theorem dominated_name : (Analysis.ofGraph other).dominates (name u) (name v) =
    (Analysis.ofGraph graph).dominates u v := by
  rw [Bool.eq_iff_iff, Analysis.dominates_iff renamed.consistent',
    Analysis.dominates_iff renamed.consistent, renamed.reaches_name, renamed.reaches_name,
    renamed.dominates_name]

omit renamed in
/-- Preorder numbers, with that of what is not reached. -/
theorem order_cases (consistent : graph.Consistent) (v : Nat) :
    (∃ number, (Analysis.ofGraph graph).dominators.order? v = some number ∧
        (Analysis.ofGraph graph).order v = number ∧ number < graph.size) ∨
      (Analysis.ofGraph graph).dominators.order? v = none ∧
        (Analysis.ofGraph graph).order v = graph.size := by
  have numbers := Analysis.numbers consistent
  cases numbered : (Analysis.ofGraph graph).dominators.order? v with
  | some number =>
      have within := (numbers.vertexAt_of_order? numbered).1
      refine .inl ⟨number, rfl, ?_, Nat.lt_of_lt_of_le within numbers.count_le⟩
      rw [Analysis.order, numbered]
      rfl
  | none =>
      have size : (Analysis.ofGraph graph).last.size = graph.size :=
        (Analysis.raised_subtreeEnds numbers).size_eq.trans numbers.order_size
      refine .inr ⟨rfl, ?_⟩
      rw [Analysis.order, numbered, size]
      rfl

/-- Vertices keep their places in preorder. -/
theorem order_lt_name : (Analysis.ofGraph other).order (name u) < (Analysis.ofGraph other).order
    (name v) ↔ (Analysis.ofGraph graph).order u < (Analysis.ofGraph graph).order v := by
  have smaller := renamed.size_le
  have first := order_cases renamed.consistent u
  have second := order_cases renamed.consistent v
  have first' := order_cases renamed.consistent' (name u)
  have second' := order_cases renamed.consistent' (name v)
  rw [renamed.order?_name] at first' second'
  rcases first with ⟨i, isI, uOrder, iBelow⟩ | ⟨isI, uOrder⟩ <;> rw [isI] at first' <;>
  rcases second with ⟨j, isJ, vOrder, jBelow⟩ | ⟨isJ, vOrder⟩ <;> rw [isJ] at second' <;>
  simp only [Option.some.injEq, reduceCtorEq, false_and, true_and, or_false, false_or,
    exists_eq_left', exists_const] at first' second' <;> omega

theorem order_le_name : (Analysis.ofGraph other).order (name u) ≤ (Analysis.ofGraph other).order
    (name v) ↔ (Analysis.ofGraph graph).order u ≤ (Analysis.ofGraph graph).order v := by
  rw [← Nat.not_lt, ← Nat.not_lt, renamed.order_lt_name]

/-- The immediate dominator of a vertex that is reached. -/
theorem idom?_name (reaches : graph.Reaches .forward root v) (notRoot : v ≠ root) :
    (Analysis.ofGraph other).dominators.idom? (name v) =
      ((Analysis.ofGraph graph).dominators.idom? v).map name := by
  have reaches' : other.Reaches .forward root (name v) := renamed.reaches_name.mpr reaches
  obtain ⟨d, found, different, dominates, least⟩ :=
    (Analysis.computed renamed.consistent).immediatelyDominates reaches notRoot
  obtain ⟨d', found', immediate⟩ :=
    (Analysis.computed renamed.consistent').immediatelyDominates reaches'
      fun same => notRoot (renamed.name_eq_root.mp same)
  have isNamed : DominatorTree.ImmediatelyDominates other .forward (name d) (name v) := by
    refine ⟨fun same => different (renamed.injective same), renamed.dominates_name.mpr dominates,
      fun n notV above => ?_⟩
    obtain ⟨n, rfl, _⟩ := renamed.exists_of_reaches (above.reaches reaches')
    exact renamed.dominates_name.mpr (least n (fun same => notV (congrArg name same))
      (renamed.dominates_name.mp above))
  rw [found, found', (Analysis.computed renamed.consistent').immediatelyDominates_unique reaches'
    isNamed immediate]
  rfl

/-! ## Sorting -/

omit renamed in
theorem order_injective (consistent : graph.Consistent) (uReached : graph.Reaches .forward root u)
    (vReached : graph.Reaches .forward root v)
    (same : (Analysis.ofGraph graph).order u = (Analysis.ofGraph graph).order v) : u = v := by
  obtain ⟨i, iWithin, rfl⟩ := Analysis.exists_number consistent uReached
  obtain ⟨j, jWithin, rfl⟩ := Analysis.exists_number consistent vReached
  rw [Analysis.order_vertexAt consistent iWithin, Analysis.order_vertexAt consistent jWithin]
    at same
  rw [same]

end Digraph.Renamed

/-- Sorting follows a map that the orders follow. -/
theorem sortBy_map {ι κ : Type} {name : ι → κ} {le : ι → ι → Bool} {le' : κ → κ → Bool}
    (same : ∀ x y, le' (name x) (name y) = le x y) (items : List ι) :
    sortBy le' (items.map name) = (sortBy le items).map name := by
  have inserted (x : ι) (items : List ι) :
      insertBy le' (name x) (items.map name) = (insertBy le x items).map name := by
    induction items with
    | nil => rfl
    | cons y rest inductionHypothesis =>
        rw [List.map_cons, insertBy, insertBy, same]
        split
        · rfl
        · rw [inductionHypothesis, List.map_cons]
  induction items with
  | nil => rfl
  | cons x rest inductionHypothesis =>
      show insertBy le' (name x) (sortBy le' (rest.map name)) = _
      rw [inductionHypothesis, inserted]
      rfl

/-- Lists of the same items are sorted alike when no two items are equal in the
order. -/
theorem sortBy_eq_of_perm {ι : Type} {le : ι → ι → Bool}
    (transitive : ∀ x y z, le x y = true → le y z = true → le x z = true)
    (total : ∀ x y, le x y = false → le y x = true) {items others : List ι}
    (strict : ∀ x ∈ items, ∀ y ∈ items, le x y = true → le y x = true → x = y)
    (same : items.Perm others) : sortBy le items = sortBy le others := by
  apply List.Perm.eq_of_pairwise _ (pairwise_sortBy le transitive total items)
    (pairwise_sortBy le transitive total others)
  · exact (sortBy_perm le items).trans (same.trans (sortBy_perm le others).symm)
  · intro x y first second
    exact strict x ((mem_sortBy le items x).mp first) y
      (same.mem_iff.mpr ((mem_sortBy le others y).mp second))

namespace Digraph.Renamed

variable {name : Nat → Nat} {relabel : Node → Node} {graph other : RegionGraph}
  (renamed : Renamed name relabel graph other)
include renamed

/-- Vertices that are reached are sorted alike, in whatever order they come. -/
theorem sortBy_name {le le' : Nat → Nat → Bool}
    (transitive : ∀ x y z, le' x y = true → le' y z = true → le' x z = true)
    (total : ∀ x y, le' x y = false → le' y x = true)
    (ties : ∀ x y, le' x y = true → le' y x = true →
      (Analysis.ofGraph other).order x = (Analysis.ofGraph other).order y)
    (follows : ∀ x y, le' (name x) (name y) = le x y) {vertices vertices' : List Nat}
    (reached : ∀ v ∈ vertices, graph.Reaches .forward root v)
    (same : vertices'.Perm (vertices.map name)) :
    sortBy le' vertices' = (sortBy le vertices).map name := by
  have reached' (w : Nat) (member : w ∈ vertices') : other.Reaches .forward root w := by
    obtain ⟨v, isOld, rfl⟩ := List.mem_map.mp (same.mem_iff.mp member)
    exact renamed.reaches_name.mpr (reached v isOld)
  have strict : ∀ x ∈ vertices', ∀ y ∈ vertices', le' x y = true → le' y x = true → x = y := by
    intro x isX y isY first second
    exact order_injective renamed.consistent' (reached' x isX) (reached' y isY)
      (ties x y first second)
  exact (sortBy_eq_of_perm transitive total strict same).trans (sortBy_map follows vertices)

theorem ascending_name {vertices vertices' : List Nat}
    (reached : ∀ v ∈ vertices, graph.Reaches .forward root v)
    (same : vertices'.Perm (vertices.map name)) :
    (Analysis.ofGraph other).ascending vertices' =
      ((Analysis.ofGraph graph).ascending vertices).map name := by
  apply renamed.sortBy_name _ _ _ _ reached same
  · simp only [decide_eq_true_eq]
    omega
  · simp only [decide_eq_true_eq, decide_eq_false_iff_not]
    omega
  · simp only [decide_eq_true_eq]
    omega
  · simp only [renamed.order_le_name, implies_true]

theorem descending_name {vertices vertices' : List Nat}
    (reached : ∀ v ∈ vertices, graph.Reaches .forward root v)
    (same : vertices'.Perm (vertices.map name)) :
    (Analysis.ofGraph other).descending vertices' =
      ((Analysis.ofGraph graph).descending vertices).map name := by
  apply renamed.sortBy_name _ _ _ _ reached same
  · simp only [decide_eq_true_eq]
    omega
  · simp only [decide_eq_true_eq, decide_eq_false_iff_not]
    omega
  · simp only [decide_eq_true_eq]
    omega
  · simp only [renamed.order_le_name, implies_true]

end Digraph.Renamed

end FlowRegions
