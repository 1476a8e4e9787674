import FlowRegions.Digraph.Stored
import FlowRegions.Proofs.Digraph.Calls

/-!
Contract: stored graphs are graphs, edit by edit.

What a store lists is all that can be seen of it, and every operation on a store is
the operation on lists that it stands for, in whichever form the store is.  So each
edit of a stored graph is the edit of the graph that it lists, and so are all
calls.

Owns:
- what the operations on stores do to the lists;
- `StoredGraph.view`, the graph that a stored graph lists, and that the edits and the
  sequences of calls go with it.
-/

namespace FlowRegions

namespace EdgeStore

variable (store : EdgeStore)

@[simp]
theorem toList_empty : empty.toList = [] :=
  rfl

theorem length_toList : store.toList.length = store.length := by
  cases store with
  | slots first second count =>
      have atMost := count.isLt
      simp only [toList, length, List.length_take, List.length_cons, List.length_nil]
      omega
  | spilled entries => rfl

/-- Positions below the length hold what is listed there. -/
theorem getElem?_toList {i : Nat} (within : i < store.length) :
    store.toList[i]? = some (store.get i) := by
  cases store with
  | slots first second count =>
      simp only [length] at within
      obtain rfl | rfl : i = 0 ∨ i = 1 := by omega
      · simp [toList, get, within]
      · simp [toList, get, within]
  | spilled entries =>
      simp only [length] at within
      simp [toList, get, within]

@[simp]
theorem toList_add (target : Nat) : (store.add target).toList = store.toList ++ [target] := by
  fun_cases add store target with
  | case1 | case2 | case3 | case4 => rfl

theorem toList_set {i : Nat} (within : i < store.length) (target : Nat) :
    (store.set i target).toList = store.toList.set i target := by
  cases store with
  | slots first second count =>
      simp only [length] at within
      obtain rfl | rfl : i = 0 ∨ i = 1 := by omega
      · simp [set, toList, ← List.take_set]
      · simp [set, toList, ← List.take_set]
  | spilled entries => rfl

theorem toList_deleteAt {i : Nat} (within : i < store.length) :
    (store.deleteAt i).toList = store.toList.eraseIdx i := by
  cases store with
  | slots first second count =>
      match count, within with
      | 0, within => exact absurd within (Nat.not_lt_zero i)
      | 1, within =>
          obtain rfl := Nat.lt_one_iff.mp within
          rfl
      | 2, within =>
          obtain rfl | rfl := Nat.le_one_iff_eq_zero_or_eq_one.mp (Nat.le_of_lt_succ within)
          · rfl
          · rfl
  | spilled entries => rfl

theorem position?_eq_idxOf? (target : Nat) :
    store.position? target = store.toList.idxOf? target := by
  refine Option.ext fun i => ?_
  have lengths := store.length_toList
  have entry {j : Nat} (within : j < store.toList.length) : store.toList[j] = store.get j :=
    Option.some.inj ((List.getElem?_eq_getElem within).symm.trans
      (store.getElem?_toList (lengths ▸ within)))
  rw [position?, List.find?_range_eq_some, List.idxOf?_eq_some_iff, List.mem_range, ← lengths]
  constructor
  · rintro ⟨here, within, before⟩
    refine ⟨within, (entry within).trans (eq_of_beq here), fun j earlier same => ?_⟩
    rw [entry (by omega)] at same
    simpa [same] using before j earlier
  · rintro ⟨within, here, before⟩
    refine ⟨beq_iff_eq.mpr ((entry within).symm.trans here), within, fun j earlier => ?_⟩
    have different := before j earlier
    rw [entry (by omega)] at different
    simpa using different

@[simp]
theorem toList_removeOne (target : Nat) :
    (store.removeOne target).toList = store.toList.erase target := by
  rw [removeOne, List.erase_eq_eraseIdx, ← position?_eq_idxOf?]
  cases found : store.position? target with
  | none => rfl
  | some i =>
      refine store.toList_deleteAt ?_
      exact List.mem_range.mp (List.find?_range_eq_some.mp found).2.1

theorem contains_iff (target : Nat) : store.contains target = true ↔ target ∈ store.toList := by
  rw [contains, position?_eq_idxOf?, List.isSome_idxOf?]

end EdgeStore

/-! ## Changes of graphs -/

namespace Digraph

variable {α : Type} (graph : Digraph α)

def changeSuccessors (v : Nat) (onList : List Nat → List Nat) : Digraph α :=
  graph.modify v fun vertex => { vertex with successors := onList vertex.successors }

section ChangeSuccessors

variable {v : Nat} {onList other : List Nat → List Nat}

theorem successors_changeSuccessors (empty : onList [] = []) :
    (graph.changeSuccessors v onList).successors v = onList (graph.successors v) := by
  refine (neighbours_modify_map graph v v _ .forward onList fun _ => rfl).trans ?_
  split
  · rfl
  · rename_i beyond
    have none : graph.neighbours .forward v = [] :=
      neighbours_eq_nil_of_size_le .forward (by simpa using beyond)
    rw [successors, none, empty]

/-- Only what is done to the successors that are there matters. -/
theorem changeSuccessors_congr (same : onList (graph.successors v) = other (graph.successors v)) :
    graph.changeSuccessors v onList = graph.changeSuccessors v other := by
  refine ext_vertex? fun w => ?_
  rw [changeSuccessors, changeSuccessors, vertex?_modify, vertex?_modify]
  split
  · rename_i isChanged
    subst isChanged
    cases found : graph.vertex? v with
    | none => rfl
    | some vertex =>
        rw [successors, neighbours, found] at same
        exact congrArg (fun list => some { vertex with successors := list }) same
  · rfl

theorem changeSuccessors_id : graph.changeSuccessors v id = graph := by
  refine ext_vertex? fun w => ?_
  rw [changeSuccessors, vertex?_modify]
  split
  · exact Option.map_id_fun' ▸ rfl
  · rfl

theorem changeSuccessors_changeSuccessors :
    (graph.changeSuccessors v onList).changeSuccessors v other =
      graph.changeSuccessors v (other ∘ onList) := by
  refine ext_vertex? fun w => ?_
  simp only [changeSuccessors, vertex?_modify]
  split
  · rw [Option.map_map]
    rfl
  · rfl

/-- Successors are rewritten apart from predecessors. -/
theorem changeSuccessors_modify (w : Nat) (onRecords : List Nat → List Nat) :
    (graph.modify w fun vertex =>
        { vertex with predecessors := onRecords vertex.predecessors }).changeSuccessors v onList =
      (graph.changeSuccessors v onList).modify w fun vertex =>
        { vertex with predecessors := onRecords vertex.predecessors } := by
  refine ext_vertex? fun x => ?_
  simp only [changeSuccessors, vertex?_modify]
  by_cases atV : v = x <;> by_cases atW : w = x
  · simp only [if_pos atV, if_pos atW, Option.map_map]
    rfl
  all_goals simp only [atV, atW, if_true, if_false]

theorem changeSuccessors_appendPredecessor (source target : Nat) :
    (graph.appendPredecessor source target).changeSuccessors v onList =
      (graph.changeSuccessors v onList).appendPredecessor source target :=
  graph.changeSuccessors_modify target (· ++ [source])

theorem changeSuccessors_erasePredecessor (source target : Nat) :
    (graph.erasePredecessor source target).changeSuccessors v onList =
      (graph.changeSuccessors v onList).erasePredecessor source target :=
  graph.changeSuccessors_modify target (·.erase source)

end ChangeSuccessors

/-- Moves the record of one edge to the end of those at its new target. -/
def moveRecord (source old new : Nat) (graph : Digraph α) : Digraph α :=
  (graph.erasePredecessor source old).appendPredecessor source new

theorem successors_repeat_moveRecord (source old new count w : Nat) :
    (Nat.repeat (moveRecord source old new) count graph).successors w = graph.successors w := by
  induction count with
  | zero => rfl
  | succ count inductionHypothesis =>
      rw [Nat.repeat, moveRecord, successors_appendPredecessor, successors_erasePredecessor,
        inductionHypothesis]

theorem changeSuccessors_repeat_moveRecord (source old new count v : Nat)
    (onList : List Nat → List Nat) :
    (Nat.repeat (moveRecord source old new) count graph).changeSuccessors v onList =
      Nat.repeat (moveRecord source old new) count (graph.changeSuccessors v onList) := by
  induction count with
  | zero => rfl
  | succ count inductionHypothesis =>
      rw [Nat.repeat, Nat.repeat, ← inductionHypothesis, moveRecord, moveRecord,
        changeSuccessors_appendPredecessor, changeSuccessors_erasePredecessor]

theorem redirect_eq (source old new : Nat) : graph.redirect source old new =
    Nat.repeat (moveRecord source old new) ((graph.successors source).count old)
      (graph.changeSuccessors source
        (List.map fun target => if target = old then new else target)) :=
  rfl

/-- What is taken off the targets of a vertex is not taken off the vertex. -/
theorem predecessors_forget_self (v : Nat) (targets : List Nat) :
    (targets.foldl
      (fun graph target => if target = v then graph else graph.erasePredecessor v target)
      graph).predecessors v = graph.predecessors v := by
  induction targets generalizing graph with
  | nil => rfl
  | cons target targets inductionHypothesis =>
      rw [List.foldl_cons, inductionHypothesis]
      split
      · rfl
      · rename_i different
        rw [predecessors_erasePredecessor, if_neg fun both => different both.1]

end Digraph

/-! ## Turning in place -/

def turnedUpTo (old new n : Nat) (items : List Nat) : List Nat :=
  (items.take n).map (fun target => if target = old then new else target) ++ items.drop n

section Turning

variable {old new n x : Nat} {items : List Nat}

theorem turnedUpTo_length : turnedUpTo old new items.length items =
    items.map fun target => if target = old then new else target := by
  rw [turnedUpTo, List.take_length, List.drop_length, List.append_nil]

/-- The entry at the position is still to be turned. -/
theorem getElem?_turnedUpTo : (turnedUpTo old new n items)[n]? = items[n]? := by
  induction items generalizing n with
  | nil => simp [turnedUpTo]
  | cons y rest inductionHypothesis =>
      cases n with
      | zero => rfl
      | succ n => exact inductionHypothesis

theorem turnedUpTo_succ (found : items[n]? = some x) : turnedUpTo old new (n + 1) items =
    (turnedUpTo old new n items).set n (if x = old then new else x) := by
  induction items generalizing n with
  | nil => cases found
  | cons y rest inductionHypothesis =>
      cases n with
      | zero =>
          cases found
          rfl
      | succ n => exact congrArg (List.cons _) (inductionHypothesis found)

end Turning

/-! ## Views -/

def StoredVertex.view {α : Type} (vertex : StoredVertex α) : Vertex α where
  payload := vertex.payload
  successors := vertex.outgoing.toList
  predecessors := vertex.incoming.toList
  detached := vertex.detached

/-- The graph that a stored graph lists. -/
def StoredGraph.view {α : Type} (graph : StoredGraph α) : Digraph α :=
  ⟨graph.vertices.map StoredVertex.view⟩

namespace StoredGraph

variable {α : Type} (graph : StoredGraph α)

theorem vertex?_view (v : Nat) : graph.view.vertex? v = graph.vertices[v]?.map StoredVertex.view :=
  Array.getElem?_map ..

@[simp]
theorem size_view : graph.view.size = graph.size :=
  Array.size_map ..

theorem successors_view (v : Nat) : graph.view.successors v = graph.successors v := by
  simp only [Digraph.successors, Digraph.neighbours, vertex?_view, successors, outgoing]
  cases graph.vertices[v]? <;> rfl

theorem predecessors_view (v : Nat) : graph.view.predecessors v = graph.predecessors v := by
  simp only [Digraph.predecessors, Digraph.neighbours, vertex?_view, predecessors, incoming]
  cases graph.vertices[v]? <;> rfl

theorem marks_view (v : Nat) : graph.view.marks v = graph.marks v := by
  simp only [Digraph.marks, vertex?_view, marks]
  cases graph.vertices[v]? <;> rfl

theorem index?_view (name : Int) : graph.view.index? name = graph.index? name := by
  cases name with
  | ofNat v => simp only [Digraph.index?, index?, size_view]
  | negSucc v => rfl

/-! ## Edits -/

theorem view_empty : (empty : StoredGraph α).view = Digraph.empty := by
  simp [view, empty, Digraph.empty, StoredVertex.view]

theorem view_addVertex (payload : α) : (graph.addVertex payload).view =
    graph.view.addVertex payload := by
  simp only [view, addVertex, Digraph.addVertex, Array.map_push]
  rfl

/-- A change of a stored vertex is the change that is seen of it. -/
theorem view_modify (v : Nat) {change : StoredVertex α → StoredVertex α}
    {viewed : Vertex α → Vertex α}
    (same : ∀ vertex, graph.vertices[v]? = some vertex →
      (change vertex).view = viewed vertex.view) :
    (graph.modify v change).view = graph.view.modify v viewed := by
  refine Digraph.ext_vertex? fun w => ?_
  rw [Digraph.vertex?_modify, vertex?_view, vertex?_view, modify, Array.getElem?_modify]
  split
  · rename_i isChanged
    subst isChanged
    cases found : graph.vertices[v]? with
    | none => rfl
    | some vertex => exact congrArg some (same vertex found)
  · rfl

theorem view_appendIncoming (source target : Nat) :
    (graph.modifyIncoming target (·.add source)).view =
      graph.view.appendPredecessor source target :=
  graph.view_modify target fun vertex _ => by simp [StoredVertex.view]

theorem view_removeIncoming (source target : Nat) :
    (graph.modifyIncoming target (·.removeOne source)).view =
      graph.view.erasePredecessor source target :=
  graph.view_modify target fun vertex _ => by simp [StoredVertex.view]

theorem view_removeOutgoing (source target : Nat) :
    (graph.modifyOutgoing source (·.removeOne target)).view =
      graph.view.eraseSuccessor source target :=
  graph.view_modify source fun vertex _ => by simp [StoredVertex.view]

theorem view_link (source target : Nat) :
    (graph.link source target).view = graph.view.addEdge source target := by
  rw [link, view_appendIncoming, Digraph.addEdge]
  congr 1
  exact graph.view_modify source fun vertex _ => by simp [StoredVertex.view]

theorem view_unlink (source target : Nat) :
    (graph.unlink source target).view = graph.view.removeEdge source target := by
  rw [unlink, view_removeIncoming, view_removeOutgoing, Digraph.removeEdge]

theorem view_detach (v : Nat) : (graph.detach v).view = graph.view.isolate v := by
  have forgotten (targets : List Nat) :
      targets.foldl (fun graph target => if target = v then graph
        else graph.erasePredecessor v target) graph.view =
      (targets.foldl (fun graph target => if target = v then graph
        else graph.modifyIncoming target (·.removeOne v)) graph).view := by
    refine List.foldl_hom view fun graph target => ?_
    split
    · rfl
    · rw [view_removeIncoming]
  have released (graph : StoredGraph α) (sources : List Nat) :
      sources.foldl (fun graph source => if source = v then graph
        else graph.eraseSuccessor source v) graph.view =
      (sources.foldl (fun graph source => if source = v then graph
        else graph.modifyOutgoing source (·.removeOne v)) graph).view := by
    refine List.foldl_hom view fun graph source => ?_
    split
    · rfl
    · rw [view_removeOutgoing]
  have sources := graph.view.predecessors_forget_self v (graph.successors v)
  rw [forgotten, predecessors_view] at sources
  rw [detach, Digraph.isolate, successors_view, forgotten, sources, released]
  exact view_modify _ v fun vertex _ => rfl

section Retarget

variable {source old new : Nat}

/-- One position: its edge is turned in place, and its record is moved if it is turned. -/
theorem view_turnAt {i x : Nat} (found : (graph.successors source)[i]? = some x) :
    (turnAt source old new graph i).view =
      Nat.repeat (Digraph.moveRecord source old new) (if x = old then 1 else 0)
        (graph.view.changeSuccessors source (·.set i (if x = old then new else x))) := by
  have inside : i < (graph.outgoing source).length := by
    rw [← EdgeStore.length_toList]
    exact (List.getElem?_eq_some_iff.mp found).1
  have entry : (graph.outgoing source).get i = x :=
    Option.some.inj ((EdgeStore.getElem?_toList _ inside).symm.trans found)
  unfold turnAt
  rw [entry]
  by_cases isOld : x = old
  · rw [if_pos isOld, if_pos isOld, if_pos isOld, view_appendIncoming, view_removeIncoming]
    refine congrArg (Digraph.moveRecord source old new) (graph.view_modify source ?_)
    intro vertex isVertex
    have within : i < vertex.outgoing.length := by simpa [outgoing, isVertex] using inside
    simp only [StoredVertex.view, EdgeStore.toList_set _ within]
  · rw [if_neg isOld, if_neg isOld, if_neg isOld]
    have same : (graph.view.successors source).set i x = graph.view.successors source := by
      obtain ⟨_, isX⟩ := List.getElem?_eq_some_iff.mp found
      rw [successors_view, ← isX, List.set_getElem_self]
    exact ((graph.view.changeSuccessors_congr same).trans graph.view.changeSuccessors_id).symm

/-- A run over the first positions: their edges are turned in place, and one record is moved
for each that is turned. -/
theorem view_foldl_turnAt {n : Nat} (within : n ≤ (graph.successors source).length) :
    ((List.range n).foldl (turnAt source old new) graph).view =
      Nat.repeat (Digraph.moveRecord source old new)
        (((graph.successors source).take n).count old)
        (graph.view.changeSuccessors source (turnedUpTo old new n)) := by
  induction n with
  | zero => exact graph.view.changeSuccessors_id.symm
  | succ n inductionHypothesis =>
      have before := inductionHypothesis (by omega)
      rw [List.range_succ, List.foldl_append, List.foldl_cons, List.foldl_nil]
      generalize (List.range n).foldl (turnAt source old new) graph = current at before ⊢
      obtain ⟨x, found⟩ : ∃ x, (graph.successors source)[n]? = some x :=
        ⟨_, List.getElem?_eq_getElem (by omega)⟩
      have listed : current.successors source = turnedUpTo old new n (graph.successors source) := by
        rw [← successors_view, before, Digraph.successors_repeat_moveRecord,
          Digraph.successors_changeSuccessors _ (by simp [turnedUpTo]), successors_view]
      have next : graph.view.changeSuccessors source (turnedUpTo old new (n + 1)) =
          (graph.view.changeSuccessors source (turnedUpTo old new n)).changeSuccessors source
            (·.set n (if x = old then new else x)) := by
        rw [Digraph.changeSuccessors_changeSuccessors]
        refine Digraph.changeSuccessors_congr _ ?_
        rw [successors_view]
        exact turnedUpTo_succ found
      rw [view_turnAt current (by rw [listed, getElem?_turnedUpTo, found]), before, next,
        Digraph.changeSuccessors_repeat_moveRecord, List.take_add_one, found, Option.toList_some,
        List.count_append, List.count_singleton]
      by_cases isOld : x = old
      · rw [if_pos isOld, if_pos (beq_iff_eq.mpr isOld)]
        rfl
      · rw [if_neg isOld, if_neg (beq_iff_eq.not.mpr isOld)]
        rfl

theorem view_retarget : (graph.retarget source old new).view =
    graph.view.redirect source old new := by
  have lengths : (graph.outgoing source).length = (graph.successors source).length :=
    (EdgeStore.length_toList _).symm
  rw [retarget, lengths, view_foldl_turnAt graph (Nat.le_refl _), List.take_length,
    Digraph.redirect_eq, successors_view]
  refine congrArg (Nat.repeat _ _) (Digraph.changeSuccessors_congr _ ?_)
  rw [successors_view, turnedUpTo_length]

end Retarget

/-- A checked edit is the edit of what is seen, and refused for the same reason. -/
theorem view_edit (request : Edit) : (graph.edit request).map view = graph.view.edit request := by
  cases request with
  | link source target =>
      simp only [edit, Digraph.edit, index?_view, size_view]
      cases graph.index? source with
      | none => rfl
      | some u =>
          cases graph.index? target with
          | none => rfl
          | some v => exact congrArg _ (graph.view_link u v)
  | unlink source target =>
      simp only [edit, Digraph.edit, index?_view, size_view]
      cases graph.index? source with
      | none => rfl
      | some u =>
          cases graph.index? target with
          | none => rfl
          | some v =>
              have present : (graph.outgoing u).contains v = graph.view.hasEdge u v := by
                rw [Bool.eq_iff_iff, EdgeStore.contains_iff, Digraph.hasEdge, List.contains_iff_mem,
                  successors_view, successors]
              dsimp only
              rw [present]
              split
              · exact congrArg _ (graph.view_unlink u v)
              · rfl
  | retarget source old new =>
      simp only [edit, Digraph.edit, index?_view, size_view]
      cases graph.index? source with
      | none => rfl
      | some u =>
          cases graph.index? old with
          | none => rfl
          | some v =>
              cases graph.index? new with
              | none => rfl
              | some w => exact congrArg _ graph.view_retarget
  | detach name =>
      simp only [edit, Digraph.edit, index?_view, size_view]
      cases graph.index? name with
      | none => rfl
      | some v => exact congrArg _ (graph.view_detach v)

/-! ## Sequences of calls -/

def perform (graphs : List (StoredGraph α)) (call : Digraph.Call α) :
    Except EditError Unit × List (StoredGraph α) :=
  match graphs[call.handle]? with
  | none => (.ok (), graphs)
  | some graph =>
    match call.request with
    | .addVertex payload => (.ok (), graphs.set call.handle (graph.addVertex payload))
    | .edit request =>
      match graph.edit request with
      | .ok changed => (.ok (), graphs.set call.handle changed)
      | .error error => (.error error, graphs)
    | .clone => (.ok (), graphs ++ [graph])

def afterCalls (calls : List (Digraph.Call α)) : List (StoredGraph α) :=
  calls.foldl (fun graphs call => (perform graphs call).2) [empty]

/-- A call on stored graphs is the call on what they list. -/
theorem perform_view (graphs : List (StoredGraph α)) (call : Digraph.Call α) :
    Digraph.perform (graphs.map view) call =
      ((perform graphs call).1, (perform graphs call).2.map view) := by
  rw [Digraph.perform, perform, List.getElem?_map]
  cases found : graphs[call.handle]? with
  | none => rfl
  | some graph =>
      cases call.request with
      | addVertex payload =>
          dsimp only [Option.map_some]
          rw [List.map_set, view_addVertex]
      | clone =>
          dsimp only [Option.map_some]
          rw [List.map_append]
          rfl
      | edit request =>
          dsimp only [Option.map_some]
          rw [Digraph.runOn_program, ← view_edit]
          cases graph.edit request with
          | ok changed =>
              dsimp only [Except.map]
              rw [List.map_set]
          | error error =>
              dsimp only [Except.map]
              obtain ⟨within, isGraph⟩ := List.getElem?_eq_some_iff.mp found
              rw [← List.map_set, ← isGraph, List.set_getElem_self]

theorem view_afterCalls (calls : List (Digraph.Call α)) :
    (afterCalls calls).map view = Digraph.afterCalls calls := by
  have start : List.map view [(empty : StoredGraph α)] = [Digraph.empty] := by
    rw [List.map_singleton, view_empty]
  rw [afterCalls, Digraph.afterCalls, ← start]
  symm
  apply List.foldl_hom
  intro graphs call
  rw [perform_view]

end StoredGraph

end FlowRegions
