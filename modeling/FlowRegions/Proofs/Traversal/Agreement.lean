import FlowRegions.Proofs.Digraph.Edgeless
import FlowRegions.Proofs.Traversal.Postorder
import FlowRegions.Proofs.Traversal.Preorder

/-!
Contract: the cursors and the recursive search go through a graph in one order.

The search is opened first: `Digraph.Scan` is its recursion over a list of
neighbours as a relation, in which no fuel occurs.  Each cursor is then followed
along a scan.  The stack of the preorder cursor holds entries that were met
meanwhile, and the postorder cursor holds neighbours that were; what a cursor
produces depends on the others only, so both may be thought away or added.

Owns:
- `SearchEvent.openAfter`, the vertices that are being explored behind some
  events, and `SearchEvent.visits`, the vertices entered with the innermost of
  them;
- `Digraph.Scan`, and that the search performs it with the fuel it has;
- `Digraph.cursors_follow_search`.
-/

namespace FlowRegions

variable {α : Type} {graph : Digraph α} {direction : Direction}

/-! ## Unmet vertices -/

namespace Visited

def unmetCount (visited : Visited) : Nat :=
  visited.marks.count false

theorem unmetCount_empty (size : Nat) : (empty size).unmetCount = size := by
  rw [unmetCount, empty, Array.count_replicate, if_pos (by decide)]

theorem unmet_empty {size v : Nat} (within : v < size) : (empty size).contains v = false := by
  rw [contains_empty]
  exact decide_eq_false (Nat.not_le.mpr within)

/-- An index beyond the table counts as met, so meeting an unmet one is always
recorded. -/
theorem unmetCount_insert {visited : Visited} {v : Nat} (unmet : visited.contains v = false) :
    (visited.insert v).unmetCount + 1 = visited.unmetCount := by
  unfold contains Array.getD at unmet
  split at unmet
  · rename_i within
    have isFalse : visited.marks[v] = false := unmet
    have positive : 0 < visited.marks.count false :=
      Array.count_pos_iff.mpr (isFalse ▸ Array.getElem_mem within)
    rw [unmetCount, unmetCount, insert, Array.setIfInBounds, dif_pos within, Array.count_set,
      if_pos (by simp [isFalse]), if_neg (by decide)]
    omega
  · cases unmet

end Visited

/-! ## Events -/

namespace SearchEvent

/-- The vertices being explored, innermost first, behind an event. -/
def track (path : List Nat) : SearchEvent → List Nat
  | enter v => v :: path
  | leave v => path.erase v

def openAfter (path : List Nat) (events : List SearchEvent) : List Nat :=
  events.foldl track path

/-- The vertices that are entered, each with the innermost vertex being explored
at the time, or itself when there is none. -/
def visits (path : List Nat) : List SearchEvent → List (Nat × Nat)
  | [] => []
  | enter v :: later => (v, path.headD v) :: visits (v :: path) later
  | leave v :: later => visits (path.erase v) later

theorem visits_append (path : List Nat) (events later : List SearchEvent) :
    visits path (events ++ later) = visits path events ++ visits (openAfter path events) later := by
  induction events generalizing path with
  | nil => rfl
  | cons event events inductionHypothesis =>
      cases event with
      | enter v => exact congrArg ((v, path.headD v) :: ·) (inductionHypothesis (v :: path))
      | leave v => exact inductionHypothesis (path.erase v)

theorem map_fst_visits (path : List Nat) (events : List SearchEvent) :
    (visits path events).map Prod.fst = events.filterMap entered? := by
  induction events generalizing path with
  | nil => rfl
  | cons event events inductionHypothesis =>
      cases event with
      | enter v => exact congrArg (v :: ·) (inductionHypothesis (v :: path))
      | leave v => exact inductionHypothesis (path.erase v)

/-- Where a visit comes from. -/
theorem exists_enter_of_mem_visits {path : List Nat} {events : List SearchEvent}
    {visit : Nat × Nat} (member : visit ∈ visits path events) :
    ∃ before after, events = before ++ enter visit.1 :: after ∧
      visit.2 = (openAfter path before).headD visit.1 := by
  induction events generalizing path with
  | nil => cases member
  | cons event events inductionHypothesis =>
      cases event with
      | enter v =>
          rcases List.mem_cons.mp member with rfl | later
          · exact ⟨[], events, rfl, rfl⟩
          · obtain ⟨before, after, split, parent⟩ := inductionHypothesis later
            exact ⟨enter v :: before, after, congrArg (enter v :: ·) split, parent⟩
      | leave v =>
          obtain ⟨before, after, split, parent⟩ := inductionHypothesis member
          exact ⟨leave v :: before, after, congrArg (leave v :: ·) split, parent⟩

end SearchEvent

open SearchEvent

namespace Digraph

/-! ## The recursion of the search -/

/-- A search goes through a list of neighbours: from the vertices met before to
the events it reports and the vertices met behind it. -/
inductive Scan (graph : Digraph α) (direction : Direction) :
    Visited → List Nat → List SearchEvent → Visited → Prop where
  | done (visited : Visited) : Scan graph direction visited [] [] visited
  | pass {visited final : Visited} {v : Nat} {rest : List Nat} {events : List SearchEvent}
      (met : visited.contains v = true) (later : Scan graph direction visited rest events final) :
      Scan graph direction visited (v :: rest) events final
  | explore {visited middle final : Visited} {v : Nat} {rest : List Nat}
      {below events : List SearchEvent} (unmet : visited.contains v = false)
      (inner : Scan graph direction (visited.insert v) (graph.neighbours direction v) below middle)
      (later : Scan graph direction middle rest events final) :
      Scan graph direction visited (v :: rest) (enter v :: (below ++ leave v :: events)) final

namespace Scan

variable {visited final : Visited} {list : List Nat} {events : List SearchEvent}

/-- What a scan enters it leaves. -/
theorem openAfter_eq (scan : graph.Scan direction visited list events final) (path : List Nat) :
    openAfter path events = path := by
  induction scan generalizing path with
  | done => rfl
  | pass _ _ inductionHypothesis => exact inductionHypothesis path
  | @explore _ _ _ v _ below events _ _ _ inside after =>
      calc openAfter path (enter v :: (below ++ leave v :: events))
          = openAfter ((openAfter (v :: path) below).erase v) events := List.foldl_append
        _ = openAfter ((v :: path).erase v) events := by rw [inside]
        _ = path := by rw [List.erase_cons_head, after]

/-- A scan enters every vertex that it meets. -/
theorem unmetCount_eq (scan : graph.Scan direction visited list events final) :
    final.unmetCount + (events.filterMap entered?).length = visited.unmetCount := by
  induction scan with
  | done => rfl
  | pass _ _ inductionHypothesis => exact inductionHypothesis
  | explore unmet _ _ inside after =>
      have one := Visited.unmetCount_insert unmet
      simp only [List.filterMap_cons, List.filterMap_append, entered?, List.length_cons,
        List.length_append]
      omega

/-- A scan leaves the vertices that it enters. -/
theorem left_perm_entered (scan : graph.Scan direction visited list events final) :
    (events.filterMap left?).Perm (events.filterMap entered?) := by
  induction scan with
  | done => exact .refl _
  | pass _ _ inductionHypothesis => exact inductionHypothesis
  | explore _ _ _ inside after =>
      simp only [List.filterMap_cons, List.filterMap_append, entered?, left?]
      exact List.perm_middle.trans ((inside.append after).cons _)

end Scan

/-! The depth of the recursion is bounded by the vertices that are unmet, so the fuel of
the search never runs out. -/

/-- Going through a list of neighbours, when exploring one of them is known to be a
scan. -/
theorem exists_scan_foldl {fuel : Nat}
    (explored : ∀ (visited : Visited) (trail : List SearchEvent) (v : Nat),
      visited.contains v = false → visited.unmetCount ≤ fuel →
      ∃ below final,
        graph.Scan direction (visited.insert v) (graph.neighbours direction v) below final ∧
        graph.explore direction fuel ⟨visited, trail⟩ v =
          ⟨final, leave v :: (below.reverse ++ enter v :: trail)⟩)
    (list : List Nat) (visited : Visited) (trail : List SearchEvent)
    (enough : visited.unmetCount ≤ fuel) :
    ∃ events final, graph.Scan direction visited list events final ∧
      list.foldl (fun search next =>
          if search.visited.contains next then search
          else graph.explore direction fuel search next) ⟨visited, trail⟩ =
        ⟨final, events.reverse ++ trail⟩ := by
  induction list generalizing visited trail with
  | nil => exact ⟨[], visited, .done visited, rfl⟩
  | cons v rest inductionHypothesis =>
      rw [List.foldl_cons]
      cases status : visited.contains v with
      | true =>
          obtain ⟨events, final, later, result⟩ := inductionHypothesis visited trail enough
          exact ⟨events, final, .pass status later, result⟩
      | false =>
          obtain ⟨below, middle, inner, first⟩ := explored visited trail v status enough
          have fewer := inner.unmetCount_eq
          have one := Visited.unmetCount_insert status
          obtain ⟨events, final, later, result⟩ :=
            inductionHypothesis middle (leave v :: (below.reverse ++ enter v :: trail)) (by omega)
          refine ⟨_, final, .explore status inner later, ?_⟩
          rw [if_neg (by decide), first, result]
          simp

/-- Exploring an unmet vertex is a scan of its neighbours between entering and leaving
it. -/
theorem exists_scan_explore (graph : Digraph α) (direction : Direction) (fuel : Nat)
    (visited : Visited) (trail : List SearchEvent) (v : Nat)
    (unmet : visited.contains v = false) (enough : visited.unmetCount ≤ fuel) :
    ∃ below final,
      graph.Scan direction (visited.insert v) (graph.neighbours direction v) below final ∧
      graph.explore direction fuel ⟨visited, trail⟩ v =
        ⟨final, leave v :: (below.reverse ++ enter v :: trail)⟩ := by
  induction fuel generalizing visited trail v with
  | zero =>
      have one := Visited.unmetCount_insert unmet
      omega
  | succ fuel inductionHypothesis =>
      have one := Visited.unmetCount_insert unmet
      obtain ⟨below, final, inner, result⟩ := exists_scan_foldl inductionHypothesis
        (graph.neighbours direction v) (visited.insert v) (enter v :: trail) (by omega)
      refine ⟨below, final, inner, ?_⟩
      rw [Digraph.explore, result]

/-- A search is a scan of the neighbours of its start. -/
theorem exists_scan_search (direction : Direction) {start : Nat} (within : start < graph.size) :
    ∃ below final,
      graph.Scan direction ((Visited.empty graph.size).insert start)
        (graph.neighbours direction start) below final ∧
      graph.search direction start = enter start :: (below ++ [leave start]) := by
  have unmet := Visited.unmet_empty within
  obtain ⟨below, final, inner, result⟩ := exists_scan_explore graph direction graph.size
    (Visited.empty graph.size) [] start unmet (Nat.le_of_eq (Visited.unmetCount_empty _))
  refine ⟨below, final, inner, ?_⟩
  simp only [search, if_pos within, result]
  simp

end Digraph

/-! ## The preorder cursor -/

namespace Preorder

def pending (visited : Visited) (stack : List (Nat × Nat)) : List (Nat × Nat) :=
  stack.filter fun entry => !visited.contains entry.1

theorem pending_append (visited : Visited) (upper lower : List (Nat × Nat)) :
    pending visited (upper ++ lower) = pending visited upper ++ pending visited lower :=
  List.filter_append ..

/-- What is met stays met. -/
theorem pending_insert (visited : Visited) (v : Nat) (stack : List (Nat × Nat)) :
    pending (visited.insert v) stack = pending (visited.insert v) (pending visited stack) := by
  rw [pending, pending, pending, List.filter_filter]
  refine List.filter_congr fun entry _ => ?_
  rw [Visited.contains_insert]
  cases visited.contains entry.1 <;> simp

/-- The first pending entry is popped. -/
theorem pop?_eq (visited : Visited) (stack : List (Nat × Nat)) :
    (pending visited stack = [] ∧ pop? visited stack = none) ∨
      ∃ entry rest, pending visited stack = entry :: pending visited rest ∧
        pop? visited stack = some (entry, rest) := by
  induction stack with
  | nil => exact .inl ⟨rfl, rfl⟩
  | cons top below inductionHypothesis =>
      cases met : visited.contains top.1 with
      | true =>
          have dropped : pending visited (top :: below) = pending visited below :=
            List.filter_cons_of_neg (by simp [met])
          have passed : pop? visited (top :: below) = pop? visited below := by
            rw [pop?, if_pos met]
          rwa [dropped, passed]
      | false =>
          refine .inr ⟨top, below, List.filter_cons_of_pos (by simp [met]), ?_⟩
          rw [pop?, met]
          rfl

/-- What a cursor produces depends on the pending entries only. -/
theorem take_eq_of_pending {visited : Visited} {stack other : List (Nat × Nat)}
    (same : pending visited stack = pending visited other) (count : Nat) :
    (take count ⟨graph, direction, visited, stack⟩).1 =
      (take count ⟨graph, direction, visited, other⟩).1 := by
  induction count generalizing visited stack other with
  | zero => rfl
  | succ count inductionHypothesis =>
      rcases pop?_eq visited stack with ⟨none, popped⟩ | ⟨entry, rest, some, popped⟩ <;>
        rcases pop?_eq visited other with ⟨none', popped'⟩ | ⟨entry', rest', some', popped'⟩
      · simp only [take, next?, popped, popped']
      · rw [← same, none] at some'
        cases some'
      · rw [same, none'] at some
        cases some
      · rw [same, some'] at some
        obtain ⟨rfl, below⟩ := List.cons.inj some
        simp only [take, next?, popped, popped']
        refine congrArg (entry' :: ·) (inductionHypothesis ?_)
        rw [pending_append, pending_append, pending_insert _ _ rest, pending_insert _ _ rest',
          below]

theorem take_of_stack_nil (visited : Visited) (count : Nat) :
    (take count ⟨graph, direction, visited, []⟩).1 = [] := by
  cases count <;> rfl

/-- A cursor whose stack starts with a list of neighbours visits what a scan of them
enters, and comes to the entries below. -/
theorem take_of_scan {visited final : Visited} {list : List Nat} {events : List SearchEvent}
    (scan : graph.Scan direction visited list events final) (parent : Nat) (path : List Nat)
    (innermost : ∀ v ∈ list, path.headD v = parent) (below : List (Nat × Nat)) (count : Nat) :
    (take ((events.filterMap entered?).length + count)
        ⟨graph, direction, visited, list.map (·, parent) ++ below⟩).1 =
      visits path events ++ (take count ⟨graph, direction, final, below⟩).1 := by
  induction scan generalizing parent path below count with
  | done => rw [List.filterMap_nil, List.length_nil, Nat.zero_add]; rfl
  | pass met _ inductionHypothesis =>
      rw [← inductionHypothesis parent path
        (fun w member => innermost w (List.mem_cons_of_mem _ member))]
      exact take_eq_of_pending (List.filter_cons_of_neg (by simp [met])) _
  | @explore visited middle final v rest inside after unmet inner later innerHypothesis
      laterHypothesis =>
      have popped : pop? visited ((v, parent) :: (rest.map (·, parent) ++ below)) =
          some ((v, parent), rest.map (·, parent) ++ below) := by
        rw [pop?, unmet]
        rfl
      have counts : ((enter v :: (inside ++ leave v :: after)).filterMap entered?).length + count =
          (inside.filterMap entered?).length +
            ((after.filterMap entered?).length + count) + 1 := by
        simp only [List.filterMap_cons, List.filterMap_append, entered?, List.length_cons,
          List.length_append]
        omega
      have reports : visits path (enter v :: (inside ++ leave v :: after)) =
          (v, parent) :: (visits (v :: path) inside ++ visits path after) := by
        rw [visits, innermost v List.mem_cons_self, visits_append, inner.openAfter_eq, visits,
          List.erase_cons_head]
      rw [counts, reports, List.cons_append, List.append_assoc,
        ← laterHypothesis parent path (fun w member => innermost w (List.mem_cons_of_mem _ member)),
        ← innerHypothesis v (v :: path) (fun _ _ => rfl)]
      simp only [List.map_cons, List.cons_append, take, next?, popped]
      -- The cursor pushes the unmet neighbours only.
      refine congrArg ((v, parent) :: ·) (take_eq_of_pending ?_ _)
      have fresh : pending (visited.insert v)
          (((graph.neighbours direction v).filter fun next => !(visited.insert v).contains next).map
            (·, v)) = pending (visited.insert v) ((graph.neighbours direction v).map (·, v)) := by
        rw [pending, pending, List.filter_map, List.filter_map, List.filter_filter]
        simp only [Function.comp_def, Bool.and_self]
      rw [pending_append, fresh, ← pending_append]

end Preorder

/-! ## The postorder cursor -/

namespace Postorder

/-- A descent goes no further than there are unmet vertices. -/
theorem descend_succ {fuel : Nat} {visited : Visited} (enough : visited.unmetCount < fuel) (v : Nat)
    (remaining : List Nat) (path : List (Nat × List Nat)) :
    descend graph direction (fuel + 1) visited v remaining path =
      descend graph direction fuel visited v remaining path := by
  induction fuel generalizing visited v remaining path with
  | zero => omega
  | succ fuel inductionHypothesis =>
      rw [descend, descend]
      cases found : unmet? visited remaining with
      | none => rfl
      | some split =>
          obtain ⟨next, rest⟩ := split
          have one := Visited.unmetCount_insert (unmet?_eq_some found).2.1
          exact inductionHypothesis (by omega) next _ _

section Next

variable {visited : Visited} {v w : Nat} {rest : List Nat} {path : List (Nat × List Nat)}

theorem next?_of_met (met : visited.contains w = true) :
    next? ⟨graph, direction, visited, (v, w :: rest) :: path⟩ =
      next? ⟨graph, direction, visited, (v, rest) :: path⟩ := by
  simp only [next?, descend, unmet?, if_pos met]

theorem next?_of_unmet (unmet : visited.contains w = false)
    (enough : visited.unmetCount ≤ graph.size) :
    next? ⟨graph, direction, visited, (v, w :: rest) :: path⟩ =
      next? ⟨graph, direction, visited.insert w,
        (w, graph.neighbours direction w) :: (v, rest) :: path⟩ := by
  have one := Visited.unmetCount_insert unmet
  have found : unmet? visited (w :: rest) = some (w, rest) := by
    rw [unmet?, unmet]
    rfl
  simp only [next?]
  rw [descend_succ (by omega : (visited.insert w).unmetCount < graph.size), descend, found]

theorem next?_of_nil : next? ⟨graph, direction, visited, (v, []) :: path⟩ =
    some (v, ⟨graph, direction, visited, path⟩) :=
  rfl

end Next

theorem take_eq_of_next? {cursor other : Postorder α} (same : cursor.next? = other.next?)
    (count : Nat) : (take count cursor).1 = (take count other).1 := by
  cases count with
  | zero => rfl
  | succ count =>
      rw [take, take, same]
      cases other.next? <;> rfl

theorem take_of_path_nil (visited : Visited) (count : Nat) :
    (take count ⟨graph, direction, visited, []⟩).1 = [] := by
  cases count <;> rfl

/-- A cursor produces a vertex without neighbours left, and goes on behind it. -/
theorem take_succ_of_nil (visited : Visited) (v : Nat) (path : List (Nat × List Nat))
    (count : Nat) :
    (take (count + 1) ⟨graph, direction, visited, (v, []) :: path⟩).1 =
      v :: (take count ⟨graph, direction, visited, path⟩).1 := by
  rw [take, next?_of_nil]

/-- A cursor whose innermost vertex has a list of neighbours left produces what a scan of
them leaves, and comes to the neighbours behind. -/
theorem take_of_scan {visited final : Visited} {list : List Nat} {events : List SearchEvent}
    (scan : graph.Scan direction visited list events final)
    (enough : visited.unmetCount ≤ graph.size) (v : Nat) (behind : List Nat)
    (path : List (Nat × List Nat)) (count : Nat) :
    (take ((events.filterMap left?).length + count)
        ⟨graph, direction, visited, (v, list ++ behind) :: path⟩).1 =
      events.filterMap left? ++
        (take count ⟨graph, direction, final, (v, behind) :: path⟩).1 := by
  induction scan generalizing v behind path count with
  | done => rw [List.filterMap_nil, List.length_nil, Nat.zero_add]; rfl
  | pass met _ inductionHypothesis =>
      rw [← inductionHypothesis enough]
      exact take_eq_of_next? (next?_of_met met) _
  | @explore visited middle final w rest inside after unmet inner later innerHypothesis
      laterHypothesis =>
      have one := Visited.unmetCount_insert unmet
      have fewer := inner.unmetCount_eq
      have reports : (enter w :: (inside ++ leave w :: after)).filterMap left? =
          inside.filterMap left? ++ w :: after.filterMap left? := by
        simp only [List.filterMap_cons, List.filterMap_append, left?]
      have counts : (inside.filterMap left? ++ w :: after.filterMap left?).length + count =
          (inside.filterMap left?).length + ((after.filterMap left?).length + count + 1) := by
        rw [List.length_append, List.length_cons]
        omega
      rw [reports, counts, List.append_assoc]
      show _ = inside.filterMap left? ++ w :: (after.filterMap left? ++ _)
      rw [← laterHypothesis (by omega) v behind path count, ← take_succ_of_nil middle w,
        ← innerHypothesis (by omega) w [], List.append_nil]
      exact take_eq_of_next? (next?_of_unmet unmet enough) _

end Postorder

/-! ## Agreement -/

namespace Digraph

/-- What the preorder cursor produces, however many vertices it is asked for. -/
theorem take_preorder_eq_visits (graph : Digraph α) (direction : Direction) (start more : Nat) :
    ((Preorder.start graph direction start).take (graph.size + more)).1 =
      visits [] (graph.search direction start) := by
  by_cases within : start < graph.size
  · obtain ⟨below, final, inner, events⟩ := exists_scan_search direction within
    have unmet := Visited.unmet_empty within
    have scan : graph.Scan direction (Visited.empty graph.size) [start]
        (graph.search direction start) final := events ▸ .explore unmet inner (.done final)
    have bound := scan.unmetCount_eq
    rw [Visited.unmetCount_empty] at bound
    have enough : graph.size + more =
        ((graph.search direction start).filterMap entered?).length +
          (graph.size + more - ((graph.search direction start).filterMap entered?).length) := by
      omega
    have followed := Preorder.take_of_scan scan start [] (by simp) []
      (graph.size + more - ((graph.search direction start).filterMap entered?).length)
    rw [← enough, Preorder.take_of_stack_nil, List.append_nil, List.append_nil] at followed
    rw [← followed, Preorder.start, if_pos within]
    rfl
  · rw [search, if_neg within, Preorder.start, if_neg within]
    exact Preorder.take_of_stack_nil _ _

/-- What the postorder cursor produces, however many vertices it is asked for. -/
theorem take_postorder_eq_left (graph : Digraph α) (direction : Direction) (start more : Nat) :
    ((Postorder.start graph direction start).take (graph.size + more)).1 =
      (graph.search direction start).filterMap left? := by
  by_cases within : start < graph.size
  · obtain ⟨below, final, inner, events⟩ := exists_scan_search direction within
    have unmet := Visited.unmet_empty within
    have one := Visited.unmetCount_insert unmet
    rw [Visited.unmetCount_empty] at one
    have bound := inner.unmetCount_eq
    have sameCount := inner.left_perm_entered.length_eq
    have enough : graph.size + more = (below.filterMap left?).length +
        (graph.size + more - (below.filterMap left?).length - 1 + 1) := by
      omega
    have followed := Postorder.take_of_scan inner (by omega) start [] []
      (graph.size + more - (below.filterMap left?).length - 1 + 1)
    rw [← enough, Postorder.take_succ_of_nil, Postorder.take_of_path_nil, List.append_nil]
      at followed
    rw [Postorder.start, if_pos within, events, List.filterMap_cons, List.filterMap_append]
    exact followed
  · rw [search, if_neg within, Postorder.start, if_neg within]
    exact Postorder.take_of_path_nil _ _

/-- The vertices entered are those reached from the start, each once. -/
theorem Contained.entered_search (contained : graph.Contained direction) (start : Nat) :
    ((graph.search direction start).filterMap entered?).Nodup ∧
      ∀ v, v ∈ (graph.search direction start).filterMap entered? ↔
        start < graph.size ∧ graph.Reaches direction start v := by
  by_cases within : start < graph.size
  · obtain ⟨parent, complete⟩ : ∃ parent, Preorder.Complete graph direction start parent
        (Preorder.start graph direction start).toList :=
      Preorder.exists_complete_toList contained within
    have visited := take_preorder_eq_visits graph direction start 0
    have same := map_fst_visits [] (graph.search direction start)
    rw [← visited] at same
    rw [← same]
    exact ⟨complete.distinct, fun v => (complete.met_iff v).trans (and_iff_right within).symm⟩
  · rw [search, if_neg within]
    exact ⟨List.nodup_nil, fun v => iff_of_false List.not_mem_nil fun both => within both.1⟩

theorem entered_search (consistent : graph.Consistent) (direction : Direction) (start : Nat) :
    ((graph.search direction start).filterMap entered?).Nodup ∧
      ∀ v, v ∈ (graph.search direction start).filterMap entered? ↔
        start < graph.size ∧ graph.Reaches direction start v :=
  (consistent.contained direction).entered_search start

/-- The vertices left are those entered, in some order. -/
theorem left_perm_entered_search (graph : Digraph α) (direction : Direction) (start : Nat) :
    ((graph.search direction start).filterMap left?).Perm
      ((graph.search direction start).filterMap entered?) := by
  by_cases within : start < graph.size
  · obtain ⟨below, final, inner, events⟩ := exists_scan_search direction within
    simp only [events, List.filterMap_cons, List.filterMap_append, List.filterMap_nil, left?,
      entered?, List.append_nil]
    exact (List.perm_append_singleton start _).trans (inner.left_perm_entered.cons start)
  · rw [search, if_neg within]
    exact .refl _

/-- A vertex that is not left stays open. -/
theorem mem_openAfter {v : Nat} {path : List Nat} {events : List SearchEvent} (member : v ∈ path)
    (kept : v ∉ events.filterMap left?) : v ∈ openAfter path events := by
  induction events generalizing path with
  | nil => exact member
  | cons event events inductionHypothesis =>
      cases event with
      | enter w => exact inductionHypothesis (List.mem_cons_of_mem _ member) kept
      | leave w =>
          obtain ⟨other, later⟩ := not_or.mp (List.mem_cons.not.mp kept)
          exact inductionHypothesis ((List.mem_erase_of_ne other).mpr member) later

/-- Nothing is open when the start is entered, and something is whenever another vertex
is. -/
theorem openAfter_eq_nil_iff {start v : Nat} {before after : List SearchEvent}
    (distinct : ((graph.search direction start).filterMap entered?).Nodup)
    (split : graph.search direction start = before ++ enter v :: after) :
    openAfter [] before = [] ↔ v = start := by
  have within : start < graph.size := by
    by_contra beyond
    rw [search, if_neg beyond] at split
    simp at split
  obtain ⟨below, final, inner, events⟩ := exists_scan_search direction within
  have leftOnce := (left_perm_entered_search graph direction start).nodup_iff.mpr distinct
  rw [events] at split distinct leftOnce
  cases before with
  | nil =>
      obtain ⟨same, _⟩ := List.cons.inj split
      exact iff_of_true rfl (SearchEvent.enter.inj same).symm
  | cons first before =>
      obtain ⟨rfl, inside⟩ := List.cons.inj split
      simp only [List.filterMap_cons, List.filterMap_append, List.filterMap_nil, entered?, left?,
        List.append_nil] at distinct leftOnce
      -- The start is left last, so the other vertex is entered inside.
      obtain ⟨rest, rfl⟩ : ∃ rest, below = before ++ enter v :: rest := by
        rcases List.append_eq_append_iff.mp inside with ⟨rest, rfl, ends⟩ | ⟨rest, rfl, ends⟩
        · cases rest with
          | nil => cases ends
          | cons event rest => cases (List.append_eq_nil_iff.mp (List.cons.inj ends).2.symm).2
        · cases rest with
          | nil => cases ends
          | cons event rest =>
              obtain ⟨rfl, _⟩ := List.cons.inj ends
              exact ⟨rest, rfl⟩
      simp only [List.filterMap_append, List.filterMap_cons, entered?, left?] at distinct leftOnce
      have stays : start ∈ openAfter [start] before := by
        refine mem_openAfter List.mem_cons_self fun isLeft => ?_
        exact (List.nodup_append.mp leftOnce).2.2 start (List.mem_append_left _ isLeft) start
          List.mem_cons_self rfl
      refine iff_of_false (List.ne_nil_of_mem stays) ?_
      rintro rfl
      exact (List.nodup_cons.mp distinct).1 (List.mem_append_right _ List.mem_cons_self)

/-- Where a traversal begins that is asked to start at an arbitrary integer: one that names
no vertex lies beyond the graph. -/
def startAt (graph : Digraph α) (name : Int) : Nat :=
  (graph.index? name).getD graph.size

/-- What is reached from where a traversal begins is reached from the vertex that is named. -/
theorem reaches_startAt_iff {name : Int} {v : Nat} :
    graph.startAt name < graph.size ∧ graph.Reaches direction (graph.startAt name) v ↔
      ∃ s, graph.index? name = some s ∧ graph.Reaches direction s v := by
  unfold startAt
  cases found : graph.index? name with
  | none => simp
  | some s => simp [((index?_eq_some_iff graph name s).mp found).2]

/-- The cursors agree with the recursive search.  From every start, one that names no vertex
among them, and however many vertices they are asked for, the preorder cursor produces the
vertices that the search enters and the postorder cursor those that it leaves, in order.  The
parent of a vertex is the innermost vertex being explored when the search enters it, and the
start is its own.  Each sequence holds what is reached from the start, once. -/
theorem cursors_follow_search (built : graph.Built) (direction : Direction) (name : Int)
    {start : Nat} (named : graph.startAt name = start) :
    (∀ more, ((Preorder.start graph direction start).take (graph.size + more)).1.map Prod.fst =
      (graph.search direction start).filterMap entered?) ∧
    (∀ more, ∀ visit ∈ ((Preorder.start graph direction start).take (graph.size + more)).1,
      ∃ before after, graph.search direction start = before ++ enter visit.1 :: after ∧
        if visit.1 = start then visit.2 = start
        else (openAfter [] before).head? = some visit.2) ∧
    (∀ more, ((Postorder.start graph direction start).take (graph.size + more)).1 =
      (graph.search direction start).filterMap left?) ∧
    ((graph.search direction start).filterMap entered?).Nodup ∧
    ((graph.search direction start).filterMap left?).Nodup ∧
    ∀ v,
      (v ∈ (graph.search direction start).filterMap entered? ↔
        ∃ s, graph.index? name = some s ∧ graph.Reaches direction s v) ∧
      (v ∈ (graph.search direction start).filterMap left? ↔
        ∃ s, graph.index? name = some s ∧ graph.Reaches direction s v) := by
  subst named
  obtain ⟨distinct, reached⟩ := entered_search built.consistent direction (graph.startAt name)
  simp only [reaches_startAt_iff] at reached
  have reordered := left_perm_entered_search graph direction (graph.startAt name)
  refine ⟨fun more => ?_, fun more visit member => ?_, take_postorder_eq_left graph direction _,
    distinct, reordered.nodup_iff.mpr distinct,
    fun v => ⟨reached v, reordered.mem_iff.trans (reached v)⟩⟩
  · rw [take_preorder_eq_visits, map_fst_visits]
  · rw [take_preorder_eq_visits] at member
    obtain ⟨before, after, split, parent⟩ := exists_enter_of_mem_visits member
    refine ⟨before, after, split, ?_⟩
    have innermost := openAfter_eq_nil_iff distinct split
    split_ifs with isStart
    · rw [parent, innermost.mpr isStart, ← isStart]
      rfl
    · obtain ⟨innermostOpen, path, isOpen⟩ := List.exists_cons_of_ne_nil (innermost.not.mpr isStart)
      rw [parent, isOpen]
      rfl

/-- A vertex that is found from two others and waits twice on the stack, behind a cycle with a
self-edge and a repeated edge. -/
def foundTwice : Digraph Unit :=
  ofEdges 4 [(0, 2), (2, 3), (2, 4), (2, 4), (3, 3), (3, 4), (4, 5), (5, 2), (4, 1)]

/-- Its last vertices are entered from the inner of the two. -/
theorem cursors_follow_search_foundTwice :
    foundTwice.search .forward root =
        [.enter 0, .enter 2, .enter 3, .enter 4, .enter 5, .leave 5, .enter 1, .leave 1, .leave 4,
          .leave 3, .leave 2, .leave 0] ∧
      (Preorder.start foundTwice .forward root).toList =
        [(0, 0), (2, 0), (3, 2), (4, 3), (5, 4), (1, 4)] ∧
      (Postorder.start foundTwice .forward root).toList =
        (foundTwice.search .forward root).filterMap left? := by
  have built : foundTwice.Built := built_ofEdges (by decide)
  have named : foundTwice.startAt 0 = root := by decide +kernel
  exact ⟨by decide +kernel, by decide +kernel,
    (cursors_follow_search built .forward 0 named).2.2.1 0⟩

end Digraph

end FlowRegions
