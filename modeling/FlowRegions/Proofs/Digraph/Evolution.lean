import FlowRegions.Proofs.Digraph.Stored
import Mathlib.Logic.Function.Basic

/-!
Contract: how the adjacency lists of a stored graph evolve.

Each edit that is accepted rewrites a few lists and leaves all others, all payloads
and all detached marks, in whichever form the lists are stored.  Edges are removed
one occurrence at a time at both of their ends, so that detaching and retargeting
leave nothing behind rests on every edge being listed as often at its target as at
its source.

Owns:
- the predecessors of a graph whose edges are turned;
- `StoredGraph.edits_exact`.
-/

namespace FlowRegions

namespace Digraph

variable {α : Type} {graph : Digraph α} {source old new : Nat}

/-! ## Moved records -/

@[simp]
theorem size_changeSuccessors (graph : Digraph α) (v : Nat) (onList : List Nat → List Nat) :
    (graph.changeSuccessors v onList).size = graph.size :=
  size_modify ..

theorem predecessors_changeSuccessors (graph : Digraph α) (v : Nat) (onList : List Nat → List Nat)
    (w : Nat) : (graph.changeSuccessors v onList).predecessors w = graph.predecessors w :=
  neighbours_modify_of_eq graph v w _ .backward fun _ => rfl

@[simp]
theorem size_repeat_moveRecord (graph : Digraph α) (source old new count : Nat) :
    (Nat.repeat (moveRecord source old new) count graph).size = graph.size := by
  induction count with
  | zero => rfl
  | succ count inductionHypothesis =>
      rw [Nat.repeat, moveRecord, size_appendPredecessor, size_erasePredecessor,
        inductionHypothesis]

/-- Records that move to another vertex leave the first places and take the last ones. -/
theorem predecessors_repeat_moveRecord (different : old ≠ new) (oldWithin : old < graph.size)
    (newWithin : new < graph.size) (count w : Nat) :
    (Nat.repeat (moveRecord source old new) count graph).predecessors w =
      if w = old then (fun rest : List Nat => rest.erase source)^[count] (graph.predecessors w)
      else if w = new then graph.predecessors w ++ List.replicate count source
      else graph.predecessors w := by
  induction count with
  | zero => simp [Nat.repeat]
  | succ count inductionHypothesis =>
      rw [Nat.repeat, moveRecord, predecessors_appendPredecessor, predecessors_erasePredecessor,
        size_erasePredecessor, size_repeat_moveRecord, inductionHypothesis]
      by_cases isOld : w = old
      · subst isOld
        rw [if_neg fun both => different both.1.symm, if_pos ⟨rfl, oldWithin⟩, if_pos rfl,
          if_pos rfl, Function.iterate_succ_apply']
      · by_cases isNew : w = new
        · subst isNew
          rw [if_pos ⟨rfl, newWithin⟩, if_neg fun both => isOld both.1.symm, if_neg isOld,
            if_pos rfl, if_neg isOld, if_pos rfl, List.replicate_succ', List.append_assoc]
        · rw [if_neg fun both => isNew both.1.symm, if_neg fun both => isOld both.1.symm,
            if_neg isOld, if_neg isNew, if_neg isOld, if_neg isNew]

/-- Records that move to the end of their own list only change places. -/
theorem predecessors_repeat_moveRecord_self (graph : Digraph α) (within : old < graph.size)
    {count : Nat}
    (recorded : 0 < count → source ∈ graph.predecessors old) :
    ((Nat.repeat (moveRecord source old old) count graph).predecessors old).Perm
        (graph.predecessors old) ∧
      ∀ w, w ≠ old → (Nat.repeat (moveRecord source old old) count graph).predecessors w =
        graph.predecessors w := by
  induction count with
  | zero => exact ⟨.refl _, fun _ _ => rfl⟩
  | succ count inductionHypothesis =>
      have recorded := recorded (Nat.succ_pos count)
      obtain ⟨same, others⟩ := inductionHypothesis fun _ => recorded
      have lists (w : Nat) := predecessors_appendPredecessor
        ((Nat.repeat (moveRecord source old old) count graph).erasePredecessor source old)
        source old w
      simp only [predecessors_erasePredecessor, size_erasePredecessor, size_repeat_moveRecord]
        at lists
      refine ⟨?_, fun w different => ?_⟩
      · rw [Nat.repeat, moveRecord, lists, if_pos ⟨rfl, within⟩, if_pos ⟨rfl, within⟩]
        exact (List.perm_append_singleton ..).trans
          ((List.perm_cons_erase (same.mem_iff.mpr recorded)).symm.trans same)
      · rw [Nat.repeat, moveRecord, lists, if_neg fun both => different both.1.symm,
          if_neg fun both => different both.1.symm, others w different]

/-- Turned edges take all records of their source off the old target and put as many behind
those of the new one. -/
theorem Consistent.predecessors_redirect (consistent : graph.Consistent) (different : old ≠ new)
    (oldWithin : old < graph.size) (newWithin : new < graph.size) (w : Nat) :
    (graph.redirect source old new).predecessors w =
      if w = old then (graph.predecessors w).filter (· != source)
      else if w = new then
        graph.predecessors w ++ List.replicate ((graph.predecessors old).count source) source
      else graph.predecessors w := by
  rw [redirect_eq, predecessors_repeat_moveRecord different (by rwa [size_changeSuccessors])
    (by rwa [size_changeSuccessors]), predecessors_changeSuccessors, consistent.symmetric]
  by_cases isOld : w = old
  · rw [if_pos isOld, if_pos isOld, isOld, erase_iterate_count]
  · rw [if_neg isOld, if_neg isOld]

/-- Edges turned to where they lead change places among the records there. -/
theorem Consistent.predecessors_redirect_self (consistent : graph.Consistent)
    (within : old < graph.size) :
    ((graph.redirect source old old).predecessors old).Perm (graph.predecessors old) ∧
      ∀ w, w ≠ old → (graph.redirect source old old).predecessors w = graph.predecessors w := by
  have recorded (some : 0 < (graph.successors source).count old) :
      source ∈ (graph.changeSuccessors source
        (List.map fun target => if target = old then old else target)).predecessors old := by
    rw [predecessors_changeSuccessors, consistent.mem_predecessors]
    exact List.count_pos_iff.mp some
  have moved := predecessors_repeat_moveRecord_self _ (by rwa [size_changeSuccessors]) recorded
  simpa only [redirect_eq, predecessors_changeSuccessors] using moved

end Digraph

namespace StoredGraph

variable {α : Type} {graph : StoredGraph α}

/-! ## Edits of stored graphs -/

theorem consistent_view {calls : List (Digraph.Call α)} (made : graph ∈ afterCalls calls) :
    graph.view.Consistent := by
  have member : graph.view ∈ Digraph.afterCalls calls := by
    rw [← view_afterCalls]
    exact List.mem_map_of_mem made
  exact (Digraph.built_afterCalls calls _ member).consistent

theorem index?_of_lt {v : Nat} (within : v < graph.size) : graph.index? (v : Int) = some v :=
  if_pos within

/-- A list that is rewritten at one vertex within the graph. -/
theorem update_of_view {lists viewed : Nat → List Nat} {v size : Nat}
    (onList : List Nat → List Nat) (within : v < size)
    (rewrites : ∀ w, viewed w = if v = w ∧ w < size then onList (lists w) else lists w) :
    viewed = Function.update lists v (onList (lists v)) := by
  refine Function.eq_update_iff.mpr ⟨?_, fun w different => ?_⟩
  · rw [rewrites, if_pos ⟨rfl, within⟩]
  · rw [rewrites, if_neg fun both => different both.1.symm]

theorem successors_eq_view (graph : StoredGraph α) : graph.successors = graph.view.successors :=
  funext fun v => (graph.successors_view v).symm

theorem predecessors_eq_view (graph : StoredGraph α) :
    graph.predecessors = graph.view.predecessors :=
  funext fun v => (graph.predecessors_view v).symm

theorem marks_eq_view (graph : StoredGraph α) : graph.marks = graph.view.marks :=
  funext fun v => (graph.marks_view v).symm

section Edits

variable {a b o w v : Nat}

theorem link_exact (aWithin : a < graph.size) (bWithin : b < graph.size) :
    (graph.link a b).successors =
        Function.update graph.successors a (graph.successors a ++ [b]) ∧
      (graph.link a b).predecessors =
        Function.update graph.predecessors b (graph.predecessors b ++ [a]) ∧
      (graph.link a b).marks = graph.marks := by
  rw [← size_view] at aWithin bWithin
  simp only [successors_eq_view, predecessors_eq_view, marks_eq_view, view_link]
  exact ⟨update_of_view (· ++ [b]) aWithin (Digraph.successors_addEdge graph.view a b),
    update_of_view (· ++ [a]) bWithin (Digraph.predecessors_addEdge graph.view a b),
    funext (Digraph.marks_addEdge graph.view a b)⟩

theorem unlink_exact (aWithin : a < graph.size) (bWithin : b < graph.size) :
    (graph.unlink a b).successors =
        Function.update graph.successors a ((graph.successors a).erase b) ∧
      (graph.unlink a b).predecessors =
        Function.update graph.predecessors b ((graph.predecessors b).erase a) ∧
      (graph.unlink a b).marks = graph.marks := by
  rw [← size_view] at aWithin bWithin
  simp only [successors_eq_view, predecessors_eq_view, marks_eq_view, view_unlink]
  exact ⟨update_of_view (·.erase b) aWithin (Digraph.successors_removeEdge graph.view a b),
    update_of_view (·.erase a) bWithin (Digraph.predecessors_removeEdge graph.view a b),
    funext (Digraph.marks_removeEdge graph.view a b)⟩

theorem retarget_exact (consistent : graph.view.Consistent) (aWithin : a < graph.size)
    (oWithin : o < graph.size) (wWithin : w < graph.size) :
    (graph.retarget a o w).successors = Function.update graph.successors a
        ((graph.successors a).map fun target => if target = o then w else target) ∧
      (o ≠ w → (graph.retarget a o w).predecessors =
        Function.update
          (Function.update graph.predecessors o ((graph.predecessors o).filter (· != a)))
          w (graph.predecessors w ++ List.replicate ((graph.predecessors o).count a) a)) ∧
      (o = w → ∃ permuted, permuted.Perm (graph.predecessors o) ∧
        (graph.retarget a o w).predecessors = Function.update graph.predecessors o permuted) ∧
      (graph.retarget a o w).marks = graph.marks := by
  rw [← size_view] at aWithin oWithin wWithin
  simp only [successors_eq_view, predecessors_eq_view, marks_eq_view, view_retarget]
  refine ⟨update_of_view (List.map fun target => if target = o then w else target) aWithin
    (Digraph.successors_redirect graph.view a o w), fun different => ?_, ?_,
    funext (Digraph.marks_redirect graph.view a o w)⟩
  · funext x
    rw [consistent.predecessors_redirect different oWithin wWithin, Function.update_apply,
      Function.update_apply]
    by_cases isOld : x = o
    · rw [if_pos isOld, if_neg (isOld ▸ different), if_pos isOld, isOld]
    · rw [if_neg isOld, if_neg isOld]
      by_cases isNew : x = w
      · rw [if_pos isNew, if_pos isNew, isNew]
      · rw [if_neg isNew, if_neg isNew]
  · rintro rfl
    obtain ⟨same, others⟩ := consistent.predecessors_redirect_self oWithin
    exact ⟨_, same, Function.eq_update_iff.mpr ⟨rfl, others⟩⟩

theorem detach_exact (consistent : graph.view.Consistent) :
    (graph.detach v).successors =
        Function.update (fun x => (graph.successors x).filter (· != v)) v [] ∧
      (graph.detach v).predecessors =
        Function.update (fun x => (graph.predecessors x).filter (· != v)) v [] ∧
      (graph.detach v).marks =
        Function.update graph.marks v ((graph.marks v).map fun mark => (mark.1, true)) := by
  simp only [successors_eq_view, predecessors_eq_view, marks_eq_view, view_detach]
  refine ⟨funext fun x => ?_, funext fun x => ?_, funext fun x => ?_⟩
  · rw [consistent.successors_isolate, Function.update_apply]
  · rw [consistent.predecessors_isolate, Function.update_apply]
  · rw [Digraph.marks_isolate, Function.update_apply]
    by_cases same : x = v
    · rw [if_pos same.symm, if_pos same, same]
    · rw [if_neg (Ne.symm same), if_neg same]

end Edits

/-- After any calls the stored graphs list what the graphs that the calls make list, and so they
do after the next edit or refusal.  An edit of vertices within the graph rewrites the lists of
an ordered multigraph, in whichever form they are stored.  A link is added at
the end of both lists.  A removal takes the first occurrence off both, and fails when there is
none.  Retargeting turns edges in place and moves their records to the end of those at the new
target, or only changes their places when old and new target are one.  Detaching empties both
lists of the vertex and takes it out of all others.  Nothing else changes. -/
theorem edits_exact (calls : List (Digraph.Call α)) :
    (afterCalls calls).map view = Digraph.afterCalls calls ∧
    ∀ graph ∈ afterCalls calls,
      ((graph.successors = graph.view.successors ∧ graph.predecessors = graph.view.predecessors ∧
          graph.marks = graph.view.marks) ∧
        ∀ request, (graph.edit request).map view = graph.view.edit request) ∧
      (∀ a b : Nat, a < graph.size → b < graph.size → ∃ next,
        graph.edit (.link a b) = .ok next ∧
        next.successors = Function.update graph.successors a (graph.successors a ++ [b]) ∧
        next.predecessors = Function.update graph.predecessors b (graph.predecessors b ++ [a]) ∧
        next.marks = graph.marks) ∧
      (∀ a b : Nat, a < graph.size → b < graph.size →
        ((∃ error, graph.edit (.unlink a b) = .error error) ↔ b ∉ graph.successors a) ∧
        ∀ next, graph.edit (.unlink a b) = .ok next →
          next.successors = Function.update graph.successors a ((graph.successors a).erase b) ∧
          next.predecessors =
            Function.update graph.predecessors b ((graph.predecessors b).erase a) ∧
          next.marks = graph.marks) ∧
      (∀ a o w : Nat, a < graph.size → o < graph.size → w < graph.size → ∃ next,
        graph.edit (.retarget a o w) = .ok next ∧
        next.successors = Function.update graph.successors a
          ((graph.successors a).map fun target => if target = o then w else target) ∧
        (o ≠ w → next.predecessors =
          Function.update
            (Function.update graph.predecessors o ((graph.predecessors o).filter (· != a)))
            w (graph.predecessors w ++ List.replicate ((graph.predecessors o).count a) a)) ∧
        (o = w → ∃ permuted, permuted.Perm (graph.predecessors o) ∧
          next.predecessors = Function.update graph.predecessors o permuted) ∧
        next.marks = graph.marks) ∧
      ∀ v : Nat, v < graph.size → ∃ next, graph.edit (.detach v) = .ok next ∧
        next.successors = Function.update (fun x => (graph.successors x).filter (· != v)) v [] ∧
        next.predecessors =
          Function.update (fun x => (graph.predecessors x).filter (· != v)) v [] ∧
        next.marks =
          Function.update graph.marks v ((graph.marks v).map fun mark => (mark.1, true)) := by
  refine ⟨view_afterCalls calls, fun graph made => ?_⟩
  have consistent := consistent_view made
  refine ⟨⟨⟨graph.successors_eq_view, graph.predecessors_eq_view, graph.marks_eq_view⟩,
      graph.view_edit⟩, fun a b aWithin bWithin => ?_, fun a b aWithin bWithin => ?_,
    fun a o w aWithin oWithin wWithin => ?_, fun v within => ?_⟩
  · refine ⟨graph.link a b, ?_, link_exact aWithin bWithin⟩
    simp only [edit, index?_of_lt aWithin, index?_of_lt bWithin]
  · have listed : (graph.outgoing a).contains b = true ↔ b ∈ graph.successors a :=
      EdgeStore.contains_iff _ b
    simp only [edit, index?_of_lt aWithin, index?_of_lt bWithin]
    by_cases present : b ∈ graph.successors a
    · rw [if_pos (listed.mpr present)]
      refine ⟨iff_of_false ?_ (not_not_intro present), ?_⟩
      · rintro ⟨_, ⟨⟩⟩
      · rintro _ ⟨⟩
        exact unlink_exact aWithin bWithin
    · rw [if_neg (listed.not.mpr present)]
      refine ⟨iff_of_true ⟨_, rfl⟩ present, ?_⟩
      rintro _ ⟨⟩
  · refine ⟨graph.retarget a o w, ?_, retarget_exact consistent aWithin oWithin wWithin⟩
    simp only [edit, index?_of_lt aWithin, index?_of_lt oWithin, index?_of_lt wWithin]
  · refine ⟨graph.detach v, ?_, detach_exact consistent⟩
    simp only [edit, index?_of_lt within]

/-- A third edge that spills the successors of vertex 2 and is removed again, while the
predecessors of vertex 3 are in slots. -/
def spillingCalls : List (Digraph.Call Unit) :=
  [⟨0, .addVertex ()⟩, ⟨0, .addVertex ()⟩, ⟨0, .edit (.link 2 3)⟩, ⟨0, .edit (.link 2 2)⟩,
    ⟨0, .edit (.link 2 3)⟩, ⟨0, .edit (.link 3 2)⟩, ⟨0, .edit (.unlink 2 2)⟩]

/-- Both edges of vertex 2 are turned back to it, and vertex 3 is left with none. -/
theorem edits_exact_spillingCalls :
    ∃ graph ∈ afterCalls spillingCalls, graph.outgoing 2 = .spilled [3, 3] ∧
      graph.incoming 3 = .slots 2 2 2 ∧ graph.predecessors 2 = [3] ∧
      ∃ next, graph.edit (.retarget 2 3 2) = .ok next ∧
        next.successors = Function.update graph.successors 2 [2, 2] ∧
        next.predecessors =
          Function.update (Function.update graph.predecessors 3 []) 2 [3, 2, 2] := by
  have ran : (afterCalls spillingCalls)[0]?.map (fun graph =>
      (graph.size, graph.outgoing 2, graph.incoming 3, graph.predecessors 2)) =
      some (4, .spilled [3, 3], .slots 2 2 2, [3]) := by decide +kernel
  cases found : (afterCalls spillingCalls)[0]? with
  | none =>
      rw [found] at ran
      cases ran
  | some graph =>
      rw [found, Option.map_some, Option.some.injEq, Prod.mk.injEq, Prod.mk.injEq,
        Prod.mk.injEq] at ran
      obtain ⟨size, leaving, entering, records⟩ := ran
      have made := List.mem_of_getElem? found
      obtain ⟨_, evolves⟩ := edits_exact spillingCalls
      obtain ⟨_, _, _, retargets, _⟩ := evolves graph made
      obtain ⟨next, accepted, turned, moved, _, _⟩ :=
        retargets 2 3 2 (by omega) (by omega) (by omega)
      have targets : graph.successors 2 = [3, 3] := congrArg EdgeStore.toList leaving
      have sources : graph.predecessors 3 = [2, 2] := congrArg EdgeStore.toList entering
      refine ⟨graph, made, leaving, entering, records, next, accepted, ?_, ?_⟩
      · rw [turned, targets]
        rfl
      · rw [moved (by decide), sources, records]
        rfl

end StoredGraph

end FlowRegions
