import FlowRegions.Proofs.Digraph.Marks
import Mathlib.Data.List.Basic
import Mathlib.Logic.Function.Iterate

/-!
Contract: the two adjacency lists of every vertex tell the same edges.

Owns:
- `Digraph.Consistent`, the invariant of every graph that edits produce: each
  edge is recorded as often at its target as at its source, every edge stays
  inside the graph, and exactly the two synthetic vertices carry no payload;
- `Digraph.Built`, the graphs that edits produce, and that they are consistent;
- what retargeting and detaching do to the edges of a consistent graph.

With the invariant a statement about edges may speak of successors alone.
-/

namespace FlowRegions.Digraph

variable {α : Type} {graph : Digraph α}

/-- The invariant of the graphs that edits produce. -/
structure Consistent (graph : Digraph α) : Prop where
  /-- Root and terminator are present. -/
  atLeastTwo : 2 ≤ graph.size
  /-- An edge is listed as often at its target as at its source. -/
  symmetric : ∀ source target,
    (graph.successors source).count target = (graph.predecessors target).count source
  /-- No edge leads out of the graph. -/
  inRange : ∀ source target, target ∈ graph.successors source → target < graph.size
  /-- The vertices behind the two synthetic ones are the real ones. -/
  payloads : ∀ v, (graph.payload? v).isSome ↔ 2 ≤ v ∧ v < graph.size

theorem neighbours_eq_nil_of_size_le (direction : Direction) {v : Nat}
    (beyond : graph.size ≤ v) : graph.neighbours direction v = [] := by
  simp only [neighbours, (vertex?_eq_none_iff graph v).mpr beyond]

theorem lt_size_of_mem_neighbours {direction : Direction} {v w : Nat}
    (member : w ∈ graph.neighbours direction v) : v < graph.size := by
  by_contra beyond
  rw [neighbours_eq_nil_of_size_le direction (Nat.le_of_not_lt beyond)] at member
  exact absurd member (by simp)

namespace Consistent

variable (consistent : graph.Consistent)
include consistent

theorem mem_predecessors {source target : Nat} :
    source ∈ graph.predecessors target ↔ target ∈ graph.successors source := by
  rw [← List.count_pos_iff, ← List.count_pos_iff, consistent.symmetric]

theorem mem_neighbours_lt {direction : Direction} {v w : Nat}
    (member : w ∈ graph.neighbours direction v) : w < graph.size := by
  cases direction with
  | forward => exact consistent.inRange v w member
  | backward => exact lt_size_of_mem_neighbours (consistent.mem_predecessors.mp member)

theorem mem_neighbours_reverse {direction : Direction} {v w : Nat} :
    w ∈ graph.neighbours direction.reverse v ↔ v ∈ graph.neighbours direction w := by
  cases direction with
  | forward => exact consistent.mem_predecessors
  | backward => exact consistent.mem_predecessors.symm

theorem isLive_of_not_isDetached {v : Nat} (isReal : 2 ≤ v) (within : v < graph.size)
    (attached : graph.isDetached v = false) : graph.isLive v = true :=
  (isLive_iff graph v).mpr ⟨(consistent.payloads v).mpr ⟨isReal, within⟩, attached⟩

theorem two_le_of_isLive {v : Nat} (live : graph.isLive v = true) : 2 ≤ v :=
  ((consistent.payloads v).mp ((isLive_iff graph v).mp live).1).1

end Consistent

/-- The payload part of the invariant depends on marks and size only. -/
private theorem payloads_of_marks {changed : Digraph α}
    (payloads : ∀ v, (graph.payload? v).isSome ↔ 2 ≤ v ∧ v < graph.size)
    (sameSize : changed.size = graph.size)
    (samePayloads : ∀ v, ((changed.marks v).bind Prod.fst).isSome =
      ((graph.marks v).bind Prod.fst).isSome) (v : Nat) :
    (changed.payload? v).isSome ↔ 2 ≤ v ∧ v < changed.size := by
  rw [payload?_eq_marks, samePayloads, ← payload?_eq_marks, payloads, sameSize]

/-! ## Adding -/

theorem Consistent.empty : (Digraph.empty : Digraph α).Consistent where
  atLeastTwo := Nat.le_refl 2
  symmetric source target := by
    have none (direction : Direction) (v : Nat) :
        (Digraph.empty : Digraph α).neighbours direction v = [] := by
      match v with
      | 0 | 1 => cases direction <;> rfl
      | _ + 2 => rfl
    simp only [successors, predecessors, none, List.count_nil]
  inRange source target member := by
    match source with
    | 0 | 1 => cases member
    | _ + 2 => cases member
  payloads v := by
    match v with
    | 0 | 1 => simp [payload?, vertex?, Digraph.empty]
    | _ + 2 => simp [payload?, vertex?, Digraph.empty, size]

theorem Consistent.addVertex (consistent : graph.Consistent) (payload : α) :
    (graph.addVertex payload).Consistent where
  atLeastTwo := by
    have := consistent.atLeastTwo
    rw [size_addVertex]
    omega
  symmetric source target := by
    simp only [successors, predecessors, neighbours_addVertex]
    exact consistent.symmetric source target
  inRange source target member := by
    rw [successors, neighbours_addVertex] at member
    have := consistent.inRange source target member
    rw [size_addVertex]
    omega
  payloads v := by
    have kept := consistent.payloads v
    have := consistent.atLeastTwo
    rw [payload?_eq_marks] at kept ⊢
    rw [marks_addVertex, size_addVertex]
    by_cases isNew : v = graph.size
    · simp only [if_pos isNew, Option.bind_some, Option.isSome_some, true_iff]
      omega
    · rw [if_neg isNew, kept]
      omega

theorem Consistent.addEdge (consistent : graph.Consistent) {source target : Nat}
    (sourceWithin : source < graph.size) (targetWithin : target < graph.size) :
    (graph.addEdge source target).Consistent where
  atLeastTwo := by
    rw [size_addEdge]
    exact consistent.atLeastTwo
  symmetric u v := by
    have before := consistent.symmetric u v
    rw [successors_addEdge, predecessors_addEdge]
    by_cases fromSource : source = u
    · subst fromSource
      by_cases toTarget : target = v
      · subst toTarget
        simp [sourceWithin, targetWithin, before]
      · have other : v ≠ target := fun equal => toTarget equal.symm
        simp [sourceWithin, toTarget, before]
    · by_cases toTarget : target = v
      · subst toTarget
        simp [targetWithin, fromSource, before]
      · simp [fromSource, toTarget, before]
  inRange u v member := by
    rw [successors_addEdge] at member
    rw [size_addEdge]
    split at member
    · rcases List.mem_append.mp member with old | new
      · exact consistent.inRange u v old
      · rwa [List.mem_singleton.mp new]
    · exact consistent.inRange u v member
  payloads := payloads_of_marks consistent.payloads (size_addEdge ..) fun v => by
    rw [marks_addEdge]

theorem Consistent.addEdges (consistent : graph.Consistent) {source : Nat}
    (sourceWithin : source < graph.size) {targets : List Nat}
    (within : ∀ target ∈ targets, target < graph.size) :
    (graph.addEdges source targets).Consistent := by
  induction targets generalizing graph with
  | nil => exact consistent
  | cons target targets inductionHypothesis =>
      simp only [Digraph.addEdges, List.foldl_cons]
      apply inductionHypothesis (consistent.addEdge sourceWithin (within target (by simp)))
      · rwa [size_addEdge]
      · intro later member
        rw [size_addEdge]
        exact within later (by simp [member])

theorem successors_addEdges (graph : Digraph α) (source : Nat) (targets : List Nat) (w : Nat) :
    (graph.addEdges source targets).successors w =
      if source = w ∧ w < graph.size then graph.successors w ++ targets
      else graph.successors w := by
  induction targets generalizing graph with
  | nil => simp [addEdges]
  | cons target targets inductionHypothesis =>
      have step := inductionHypothesis (graph.addEdge source target)
      simp only [addEdges, List.foldl_cons] at step ⊢
      rw [step, size_addEdge, successors_addEdge]
      split
      · rw [List.append_assoc, List.singleton_append]
      · rfl

/-! ## Removing one edge -/

theorem Consistent.removeEdge (consistent : graph.Consistent) {source target : Nat}
    (present : target ∈ graph.successors source) :
    (graph.removeEdge source target).Consistent where
  atLeastTwo := by
    rw [size_removeEdge]
    exact consistent.atLeastTwo
  symmetric u v := by
    have before := consistent.symmetric u v
    have sourceWithin := lt_size_of_mem_neighbours present
    have targetWithin := consistent.inRange source target present
    rw [successors_removeEdge, predecessors_removeEdge]
    by_cases fromSource : source = u
    · subst fromSource
      by_cases toTarget : target = v
      · subst toTarget
        simp [sourceWithin, targetWithin, before]
      · have other : v ≠ target := fun equal => toTarget equal.symm
        simp [sourceWithin, toTarget, List.count_erase_of_ne other, before]
    · by_cases toTarget : target = v
      · subst toTarget
        have other : u ≠ source := fun equal => fromSource equal.symm
        simp [targetWithin, fromSource, List.count_erase_of_ne other, before]
      · simp [fromSource, toTarget, before]
  inRange u v member := by
    rw [successors_removeEdge] at member
    rw [size_removeEdge]
    split at member
    · exact consistent.inRange u v (List.mem_of_mem_erase member)
    · exact consistent.inRange u v member
  payloads := payloads_of_marks consistent.payloads (size_removeEdge ..) fun v => by
    rw [marks_removeEdge]

/-! ## Retargeting -/

/-- Turning every `old` of a list into `new` moves its occurrences. -/
private theorem count_map_turn (items : List Nat) (old new item : Nat) :
    (items.map fun target => if target = old then new else target).count item +
        (if item = old then items.count old else 0) =
      items.count item + (if item = new then items.count old else 0) := by
  induction items with
  | nil => simp
  | cons head rest inductionHypothesis =>
      simp only [List.map_cons, List.count_cons, beq_iff_eq]
      split_ifs at * <;> omega

/-- Moving a record `count` times from one vertex to another moves `count`
occurrences, also when the two are the same vertex. -/
private theorem count_predecessors_move (graph : Digraph α) (source old new : Nat)
    (oldWithin : old < graph.size) (newWithin : new < graph.size) (count : Nat)
    (enough : count ≤ (graph.predecessors old).count source) (v u : Nat) :
    ((Nat.repeat
        (fun moved : Digraph α =>
          (moved.erasePredecessor source old).appendPredecessor source new)
        count graph).predecessors v).count u +
        (if v = old ∧ u = source then count else 0) =
      (graph.predecessors v).count u + (if v = new ∧ u = source then count else 0) := by
  induction count generalizing v u with
  | zero => simp [Nat.repeat]
  | succ count inductionHypothesis =>
      have before := inductionHypothesis (by omega)
      have sameSize :
          (Nat.repeat
            (fun moved : Digraph α =>
              (moved.erasePredecessor source old).appendPredecessor source new)
            count graph).size = graph.size := by
        clear before inductionHypothesis enough
        induction count with
        | zero => rfl
        | succ count sizeHypothesis => simp [Nat.repeat, sizeHypothesis]
      simp only [Nat.repeat]
      generalize Nat.repeat _ count graph = moved at before sameSize
      have here := before v u
      have atOld := before old source
      simp only [predecessors_appendPredecessor, predecessors_erasePredecessor,
        size_erasePredecessor, sameSize]
      by_cases toOld : old = v <;> by_cases toNew : new = v <;>
        by_cases fromSource : u = source <;> grind

theorem Consistent.redirect (consistent : graph.Consistent) {source old new : Nat}
    (newWithin : new < graph.size) : (graph.redirect source old new).Consistent where
  atLeastTwo := by
    rw [size_redirect]
    exact consistent.atLeastTwo
  symmetric u v := by
    rw [successors_redirect]
    by_cases oldWithin : old < graph.size
    · let turned := graph.modify source fun vertex =>
        { vertex with
          successors := vertex.successors.map fun target =>
            if target = old then new else target }
      have samePredecessors (w : Nat) : turned.predecessors w = graph.predecessors w :=
        neighbours_modify_of_eq graph source w _ .backward fun _ => rfl
      have moved := count_predecessors_move turned source old new
        (by rwa [size_modify]) (by rwa [size_modify])
        ((graph.successors source).count old)
        (Nat.le_of_eq (by rw [samePredecessors, consistent.symmetric])) v u
      change _ = ((Nat.repeat _ _ turned).predecessors v).count u
      rw [samePredecessors, ← consistent.symmetric] at moved
      by_cases fromSource : source = u
      · subst fromSource
        have turn := count_map_turn (graph.successors source) old new v
        by_cases within : source < graph.size
        · simp only [and_true, within, if_true] at moved ⊢
          omega
        · have absent : graph.successors source = [] :=
            neighbours_eq_nil_of_size_le .forward (Nat.le_of_not_lt within)
          simp only [absent, List.count_nil, ite_self, List.map_nil] at moved turn ⊢
          simp [within, absent] at *
          omega
      · have other : u ≠ source := fun equal => fromSource equal.symm
        simp only [fromSource, other, and_false, false_and, if_false, Nat.add_zero] at moved ⊢
        exact moved.symm
    · have never : (graph.successors source).count old = 0 := by
        rw [List.count_eq_zero]
        exact fun member => oldWithin (consistent.inRange source old member)
      have unchanged : (graph.successors source).map
          (fun target => if target = old then new else target) = graph.successors source := by
        rw [List.count_eq_zero] at never
        refine (List.map_congr_left fun target member => ?_).trans (List.map_id _)
        have other : target ≠ old := fun equal => never (equal ▸ member)
        rw [if_neg other, id]
      have samePredecessors :
          (graph.redirect source old new).predecessors v = graph.predecessors v := by
        simp only [Digraph.redirect, never, Nat.repeat]
        exact neighbours_modify_of_eq graph source v _ .backward fun _ => rfl
      rw [samePredecessors, ← consistent.symmetric]
      by_cases fromSource : source = u
      · subst fromSource
        rw [unchanged, ite_self]
      · simp only [fromSource, false_and, if_false]
  inRange u v member := by
    rw [successors_redirect] at member
    rw [size_redirect]
    split at member
    · obtain ⟨target, before, rfl⟩ := List.mem_map.mp member
      split
      · exact newWithin
      · exact consistent.inRange u target before
    · exact consistent.inRange u v member
  payloads := payloads_of_marks consistent.payloads (size_redirect ..) fun v => by
    rw [marks_redirect]

/-! ## Detaching -/

/-- Erasing an item once for each of its occurrences leaves none. -/
theorem erase_iterate_count (items : List Nat) (item : Nat) :
    (fun rest : List Nat => rest.erase item)^[items.count item] items =
      items.filter (· != item) := by
  have passes (head : Nat) (different : head ≠ item) (count : Nat) (rest : List Nat) :
      (fun rest : List Nat => rest.erase item)^[count] (head :: rest) =
        head :: (fun rest : List Nat => rest.erase item)^[count] rest := by
    induction count generalizing rest with
    | zero => rfl
    | succ count inductionHypothesis =>
        have skip : (head :: rest).erase item = head :: rest.erase item := by
          simp [different]
        rw [Function.iterate_succ_apply, Function.iterate_succ_apply, skip, inductionHypothesis]
  induction items with
  | nil => rfl
  | cons head rest inductionHypothesis =>
      by_cases same : head = item
      · subst same
        rw [List.count_cons_self, Function.iterate_succ_apply, List.erase_cons_head,
          inductionHypothesis]
        simp
      · rw [List.count_cons_of_ne same, passes head same, inductionHypothesis]
        simp [same]

/-- Forgetting the edges to a list of targets erases one record for each. -/
private theorem predecessors_forget (graph : Digraph α) (v w : Nat) (different : w ≠ v)
    (within : w < graph.size) (targets : List Nat) :
    ((targets.foldl
        (fun graph target => if target = v then graph else graph.erasePredecessor v target)
        graph).predecessors w) =
      (fun rest : List Nat => rest.erase v)^[targets.count w] (graph.predecessors w) := by
  induction targets generalizing graph with
  | nil => rfl
  | cons target targets inductionHypothesis =>
      rw [List.foldl_cons]
      by_cases toSelf : target = v
      · have other : target ≠ w := fun equal => different (equal.symm.trans toSelf)
        rw [if_pos toSelf, inductionHypothesis graph within, List.count_cons_of_ne other]
      · rw [if_neg toSelf, inductionHypothesis _ (by rwa [size_erasePredecessor]),
          predecessors_erasePredecessor]
        by_cases here : target = w
        · rw [if_pos ⟨here, within⟩, here, List.count_cons_self, Function.iterate_succ_apply]
        · rw [if_neg fun both => here both.1, List.count_cons_of_ne here]

/-- Releasing a vertex from a list of sources erases one edge for each. -/
private theorem successors_release (graph : Digraph α) (v w : Nat) (different : w ≠ v)
    (within : w < graph.size) (sources : List Nat) :
    ((sources.foldl
        (fun graph source => if source = v then graph else graph.eraseSuccessor source v)
        graph).successors w) =
      (fun rest : List Nat => rest.erase v)^[sources.count w] (graph.successors w) := by
  induction sources generalizing graph with
  | nil => rfl
  | cons source sources inductionHypothesis =>
      rw [List.foldl_cons]
      by_cases fromSelf : source = v
      · have other : source ≠ w := fun equal => different (equal.symm.trans fromSelf)
        rw [if_pos fromSelf, inductionHypothesis graph within, List.count_cons_of_ne other]
      · rw [if_neg fromSelf, inductionHypothesis _ (by rwa [size_eraseSuccessor]),
          successors_eraseSuccessor]
        by_cases here : source = w
        · rw [if_pos ⟨here, within⟩, here, List.count_cons_self, Function.iterate_succ_apply]
        · rw [if_neg fun both => here both.1, List.count_cons_of_ne here]

private theorem successors_forget (graph : Digraph α) (v w : Nat) (targets : List Nat) :
    ((targets.foldl
        (fun graph target => if target = v then graph else graph.erasePredecessor v target)
        graph).successors w) = graph.successors w := by
  induction targets generalizing graph with
  | nil => rfl
  | cons target targets inductionHypothesis =>
      rw [List.foldl_cons, inductionHypothesis]
      split
      · rfl
      · rw [successors_erasePredecessor]

private theorem predecessors_release (graph : Digraph α) (v w : Nat) (sources : List Nat) :
    ((sources.foldl
        (fun graph source => if source = v then graph else graph.eraseSuccessor source v)
        graph).predecessors w) = graph.predecessors w := by
  induction sources generalizing graph with
  | nil => rfl
  | cons source sources inductionHypothesis =>
      rw [List.foldl_cons, inductionHypothesis]
      split
      · rfl
      · rw [predecessors_eraseSuccessor]

private theorem size_forget (graph : Digraph α) (v : Nat) (targets : List Nat) :
    (targets.foldl
        (fun graph target => if target = v then graph else graph.erasePredecessor v target)
        graph).size = graph.size := by
  induction targets generalizing graph with
  | nil => rfl
  | cons target targets inductionHypothesis =>
      rw [List.foldl_cons, inductionHypothesis]
      split
      · rfl
      · rw [size_erasePredecessor]

/-- Clearing a vertex leaves the lists of the others. -/
private theorem neighbours_clear (graph : Digraph α) (direction : Direction) (v w : Nat)
    (different : w ≠ v) :
    (graph.modify v fun vertex =>
      { vertex with successors := [], predecessors := [], detached := true }).neighbours
        direction w = graph.neighbours direction w := by
  have other : v ≠ w := fun equal => different equal.symm
  simp only [neighbours, vertex?_modify, if_neg other]

/-- Detaching a vertex removes it from the successors of every other. -/
theorem Consistent.successors_isolate (consistent : graph.Consistent) (v w : Nat) :
    (graph.isolate v).successors w =
      if w = v then [] else (graph.successors w).filter (· != v) := by
  by_cases same : w = v
  · rw [if_pos same, same]
    exact neighbours_isolate_self graph v .forward
  · rw [if_neg same]
    by_cases within : w < graph.size
    · rw [successors, isolate, neighbours_clear _ _ v w same]
      change Digraph.successors (List.foldl _ _ _) w = _
      rw [successors_release _ v w same (by rwa [size_forget]), successors_forget,
        ← consistent.symmetric, erase_iterate_count]
    · have beyond := Nat.le_of_not_lt within
      rw [successors, successors, neighbours_eq_nil_of_size_le .forward beyond,
        neighbours_eq_nil_of_size_le .forward (by rwa [size_isolate]), List.filter_nil]

/-- Detaching a vertex removes it from the predecessors of every other. -/
theorem Consistent.predecessors_isolate (consistent : graph.Consistent) (v w : Nat) :
    (graph.isolate v).predecessors w =
      if w = v then [] else (graph.predecessors w).filter (· != v) := by
  by_cases same : w = v
  · rw [if_pos same, same]
    exact neighbours_isolate_self graph v .backward
  · rw [if_neg same]
    by_cases within : w < graph.size
    · rw [predecessors, isolate, neighbours_clear _ _ v w same]
      change Digraph.predecessors (List.foldl _ _ _) w = _
      rw [predecessors_release, predecessors_forget _ v w same within, consistent.symmetric,
        erase_iterate_count]
    · have beyond := Nat.le_of_not_lt within
      rw [predecessors, predecessors, neighbours_eq_nil_of_size_le .backward beyond,
        neighbours_eq_nil_of_size_le .backward (by rwa [size_isolate]), List.filter_nil]

theorem Consistent.isolate (consistent : graph.Consistent) (v : Nat) :
    (graph.isolate v).Consistent where
  atLeastTwo := by
    rw [size_isolate]
    exact consistent.atLeastTwo
  symmetric source target := by
    have before := consistent.symmetric source target
    have gone (items : List Nat) : (items.filter (· != v)).count v = 0 := by
      simp [List.count_eq_zero]
    rw [consistent.successors_isolate, consistent.predecessors_isolate]
    by_cases fromSelf : source = v <;> by_cases toSelf : target = v
    · simp [fromSelf, toSelf]
    · simp [fromSelf, toSelf, gone]
    · simp [fromSelf, toSelf, gone]
    · simp [fromSelf, toSelf, List.count_filter, before]
  inRange source target member := by
    rw [consistent.successors_isolate] at member
    rw [size_isolate]
    split at member
    · cases member
    · exact consistent.inRange source target (List.mem_filter.mp member).1
  payloads := payloads_of_marks consistent.payloads (size_isolate ..) fun w => by
    rw [marks_isolate]
    split
    · cases graph.marks w <;> rfl
    · rfl

theorem Consistent.isolateAll (consistent : graph.Consistent) (vertices : List Nat) :
    (graph.isolateAll vertices).Consistent := by
  induction vertices generalizing graph with
  | nil => exact consistent
  | cons v vertices inductionHypothesis => exact inductionHypothesis (consistent.isolate v)

theorem Consistent.successors_isolateAll (consistent : graph.Consistent) (vertices : List Nat)
    (w : Nat) :
    (graph.isolateAll vertices).successors w =
      if w ∈ vertices then []
      else (graph.successors w).filter fun target => decide (target ∉ vertices) := by
  induction vertices generalizing graph with
  | nil => simp [Digraph.isolateAll]
  | cons v vertices inductionHypothesis =>
      have step := inductionHypothesis (consistent.isolate v)
      simp only [Digraph.isolateAll, List.foldl_cons] at step ⊢
      rw [step, consistent.successors_isolate]
      by_cases same : w = v
      · simp [same]
      · simp only [same, List.mem_cons, false_or, if_false, List.filter_filter]
        split
        · rfl
        · refine List.filter_congr fun target _ => ?_
          by_cases hit : target = v <;> simp [hit]

/-! ## Graphs that edits produce -/

/-- The graphs that any sequence of edits produces.  A refused edit and a copy
leave the graph as it was. -/
inductive Built : Digraph α → Prop where
  | empty : Built Digraph.empty
  | addVertex {graph : Digraph α} (before : Built graph) (payload : α) :
      Built (graph.addVertex payload)
  | edit {graph changed : Digraph α} (before : Built graph) (request : Edit)
      (accepted : graph.edit request = .ok changed) : Built changed

/-- An accepted edit keeps the invariant. -/
theorem Consistent.edit (consistent : graph.Consistent) {request : Edit} {changed : Digraph α}
    (accepted : graph.edit request = .ok changed) : changed.Consistent := by
  cases request with
  | link source target =>
      simp only [Digraph.edit] at accepted
      split at accepted
      · rename_i u v foundSource foundTarget
        cases accepted
        exact consistent.addEdge ((index?_eq_some_iff graph source u).mp foundSource).2
          ((index?_eq_some_iff graph target v).mp foundTarget).2
      · cases accepted
  | unlink source target =>
      simp only [Digraph.edit] at accepted
      split at accepted
      · rename_i u v foundSource foundTarget
        split at accepted
        · rename_i present
          cases accepted
          exact consistent.removeEdge (by simpa [hasEdge] using present)
        · cases accepted
      · cases accepted
  | retarget source old new =>
      simp only [Digraph.edit] at accepted
      split at accepted
      · rename_i u v w foundSource foundOld foundNew
        cases accepted
        exact consistent.redirect ((index?_eq_some_iff graph new w).mp foundNew).2
      · cases accepted
  | detach vertex =>
      simp only [Digraph.edit] at accepted
      split at accepted
      · cases accepted
        exact consistent.isolate _
      · cases accepted

theorem Built.consistent (built : graph.Built) : graph.Consistent := by
  induction built with
  | empty => exact Consistent.empty
  | addVertex before payload inductionHypothesis => exact inductionHypothesis.addVertex payload
  | edit before request accepted inductionHypothesis => exact inductionHypothesis.edit accepted

end FlowRegions.Digraph
