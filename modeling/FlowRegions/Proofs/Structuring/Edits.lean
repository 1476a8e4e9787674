import FlowRegions.Structuring.Step
import FlowRegions.Proofs.Structuring.CollapseEffect
import Mathlib.Data.List.Forall2

/-!
Contract: what the other steps of structuring do to the region graph: cutting
an edge, giving predecessors a copy of a region, and detaching regions.

Owns, for each of them, the graph behind the step in terms of the graph before
it (`Severed`, `Copied`, `Pruned`) and that the step keeps graphs well formed.
-/

namespace FlowRegions.RegionGraph

open FlowRegions.Digraph (root terminator)

variable {graph changed : RegionGraph}

/-! ## Cutting an edge -/

/-- The edges from one region to another lead to a new jump. -/
structure Severed (graph : RegionGraph) (source target : Nat) (changed : RegionGraph) :
    Prop where
  consistent : changed.Consistent
  size_eq : changed.size = graph.size + 1
  table_old : ∀ {v}, v < graph.size → changed.table v = graph.table v
  table_new : changed.table graph.size = some { shape := .jump target }
  live_iff : ∀ v, changed.isLive v = true ↔ v = graph.size ∨ graph.isLive v = true
  successors_eq : ∀ v, changed.successors v =
    if v = source then (graph.successors v).map (turn target graph.size)
    else graph.successors v

theorem table_addVertex (graph : RegionGraph) (node : Node) (v : Nat) :
    table (graph.addVertex node) v = if v = graph.size then some node else graph.table v := by
  unfold table
  rw [Digraph.payload?_eq_marks, Digraph.marks_addVertex, Digraph.payload?_eq_marks]
  split <;> rfl

theorem isLive_addVertex (graph : RegionGraph) (node : Node) (v : Nat) :
    (graph.addVertex node).isLive v = true ↔ v = graph.size ∨ graph.isLive v = true := by
  rw [Digraph.isLive_eq_marks, Digraph.marks_addVertex, Digraph.isLive_eq_marks]
  by_cases isNew : v = graph.size <;> simp [isNew]

theorem table_congr_marks {other : RegionGraph} {v : Nat}
    (same : other.marks v = graph.marks v) : other.table v = graph.table v := by
  unfold table
  rw [Digraph.payload?_eq_marks, same, ← Digraph.payload?_eq_marks]

theorem isLive_congr_marks {other : RegionGraph} {v : Nat}
    (same : other.marks v = graph.marks v) : other.isLive v = graph.isLive v := by
  rw [Digraph.isLive_eq_marks, same, ← Digraph.isLive_eq_marks]

theorem severed_redirect (consistent : graph.Consistent) (source target : Nat) :
    Severed graph source target
      ((graph.addVertex { shape := .jump target }).redirect source target graph.size) := by
  have added := consistent.addVertex { shape := .jump target }
  have addedSize : (graph.addVertex { shape := Shape.jump target }).size = graph.size + 1 :=
    Digraph.size_addVertex _ _
  have marks (v : Nat) := Digraph.marks_redirect
    (graph.addVertex { shape := Shape.jump target }) source target graph.size v
  refine
    { consistent := added.redirect (by omega)
      size_eq := by rw [Digraph.size_redirect, addedSize]
      table_old := fun within => by
        rw [table_congr_marks (marks _), table_addVertex, if_neg (by omega)]
      table_new := by rw [table_congr_marks (marks _), table_addVertex, if_pos rfl]
      live_iff := fun v => by rw [isLive_congr_marks (marks v), isLive_addVertex]
      successors_eq := fun v => ?_ }
  have same : (graph.addVertex { shape := Shape.jump target }).successors v =
      graph.successors v := Digraph.neighbours_addVertex _ _ .forward v
  rw [Digraph.successors_redirect, same, addedSize]
  by_cases isSource : v = source
  · subst isSource
    by_cases within : v < graph.size + 1
    · rw [if_pos ⟨rfl, within⟩, if_pos rfl]
      rfl
    · have none : graph.successors v = [] :=
        Digraph.neighbours_eq_nil_of_size_le .forward (by omega)
      simp [within, none]
  · rw [if_neg (fun both => isSource both.1.symm), if_neg isSource]

namespace Severed

variable {source target : Nat} (wellFormed : graph.WellFormed)
  (severed : Severed graph source target changed)
include wellFormed severed

omit wellFormed in
theorem successors_new : changed.successors graph.size = [] := by
  have none : graph.successors graph.size = [] :=
    Digraph.neighbours_eq_nil_of_size_le .forward (Nat.le_refl _)
  rw [severed.successors_eq, none]
  split <;> rfl

/-- An edge is an old one, or a cut one that leads to the new jump. -/
theorem successors_cases {u t : Nat} (edge : t ∈ changed.successors u) :
    (t = graph.size ∧ u = source ∧ target ∈ graph.successors u) ∨
      (t ≠ graph.size ∧ t ∈ graph.successors u) := by
  have old {t : Nat} (member : t ∈ graph.successors u) : t ≠ graph.size := by
    have := wellFormed.consistent.inRange u t member
    omega
  rw [severed.successors_eq] at edge
  split at edge
  · rename_i isSource
    obtain ⟨t', member, rfl⟩ := List.mem_map.mp edge
    by_cases isTarget : t' = target
    · rw [isTarget, turn_old]
      exact .inl ⟨rfl, isSource, isTarget ▸ member⟩
    · rw [turn_of_ne isTarget]
      exact .inr ⟨old member, member⟩
  · exact .inr ⟨old edge, edge⟩

omit wellFormed in
/-- What the table holds behind a cut: an old node or the new jump. -/
theorem table_cases {i : Nat} {node : Node} (found : changed.table i = some node) :
    (i < graph.size ∧ graph.table i = some node) ∨
      (i = graph.size ∧ node = { shape := .jump target }) := by
  have within := lt_size_of_table found
  rw [severed.size_eq] at within
  by_cases isNew : i = graph.size
  · rw [isNew, severed.table_new] at found
    exact .inr ⟨isNew, (Option.some.inj found).symm⟩
  · have old : i < graph.size := by omega
    exact .inl ⟨old, (severed.table_old old).symm.trans found⟩

omit wellFormed in
theorem isJump_iff_old {j : Nat} :
    changed.isJump j = true ↔ j = graph.size ∨ (j < graph.size ∧ graph.isJump j = true) := by
  constructor
  · intro isJump
    obtain ⟨place, cond, found⟩ := isJump_iff.mp isJump
    rcases severed.table_cases found with ⟨old, found⟩ | ⟨isNew, _⟩
    · exact .inr ⟨old, isJump_iff.mpr ⟨place, cond, found⟩⟩
    · exact .inl isNew
  · rintro (rfl | ⟨old, isJump⟩)
    · exact isJump_iff.mpr ⟨_, _, severed.table_new⟩
    · rwa [isJump_congr (severed.table_old old)]

/-- The new jump is entered by the edge that is cut. -/
theorem source_of_enters_new {p : Nat} (enters : graph.size ∈ changed.successors p) :
    p = source := by
  rcases severed.successors_cases wellFormed enters with ⟨_, isSource, _⟩ | ⟨notNew, _⟩
  · exact isSource
  · exact absurd rfl notNew

/-- Cutting an edge between regions keeps region graphs well formed. -/
theorem keeps_wellFormed (sourceLive : graph.isLive source = true)
    (targetLive : graph.isLive target = true) : changed.WellFormed := by
  have newLive : changed.isLive graph.size = true := (severed.live_iff _).mpr (.inl rfl)
  have stays {v : Nat} (live : graph.isLive v = true) : changed.isLive v = true :=
    (severed.live_iff v).mpr (.inr live)
  refine
    { consistent := severed.consistent
      entry := ?_
      ends := ?_
      nested := wellFormed.nested.grow fun found => ?_
      jump_sink := ?_
      jump_entrant := ?_ }
  · obtain ⟨e, successors, live, notJump⟩ := wellFormed.entry
    refine ⟨e, ?_, stays live, ?_⟩
    · rw [severed.successors_eq, if_neg, successors]
      exact (wellFormed.ne_root_of_isLive sourceLive).symm
    · rw [isJump_congr (severed.table_old (Digraph.lt_size_of_isLive live)), notJump]
  · intro u t edge
    rcases severed.successors_cases wellFormed edge with ⟨rfl, rfl, old⟩ | ⟨_, old⟩
    · exact ⟨.inr (stays sourceLive), .inr newLive⟩
    · exact ⟨(wellFormed.ends old).1.imp_right stays, (wellFormed.ends old).2.imp_right stays⟩
  · rcases severed.table_cases found with ⟨_, old⟩ | ⟨rfl, rfl⟩
    · exact .inl old
    · refine .inr ⟨fun r refers => ?_, nofun⟩
      rw [List.mem_singleton.mp refers]
      exact Digraph.lt_size_of_isLive targetLive
  · intro j isJump
    rcases (severed.isJump_iff_old).mp isJump with rfl | ⟨_, wasJump⟩
    · exact severed.successors_new
    · rw [severed.successors_eq, wellFormed.jump_sink wasJump]
      split <;> rfl
  · intro j p q isJump fromP fromQ
    rcases (severed.isJump_iff_old).mp isJump with rfl | ⟨old, wasJump⟩
    · rw [severed.source_of_enters_new wellFormed fromP,
        severed.source_of_enters_new wellFormed fromQ]
    · have ofOld {u : Nat} (edge : j ∈ changed.successors u) : j ∈ graph.successors u :=
        (severed.successors_cases wellFormed edge).elim
          (fun cut => absurd cut.1 (Nat.ne_of_lt old)) And.right
      exact wellFormed.jump_entrant wasJump (ofOld fromP) (ofOld fromQ)

end Severed

/-! ## Detaching regions -/

structure Pruned (graph : RegionGraph) (regions : List Nat) (changed : RegionGraph) : Prop where
  consistent : changed.Consistent
  size_eq : changed.size = graph.size
  table_eq : ∀ v, changed.table v = graph.table v
  live_iff : ∀ v, changed.isLive v = true ↔ graph.isLive v = true ∧ v ∉ regions
  successors_eq : ∀ v, changed.successors v =
    if v ∈ regions then []
    else (graph.successors v).filter fun target => decide (target ∉ regions)

theorem pruned_isolateAll (consistent : graph.Consistent) (regions : List Nat) :
    Pruned graph regions (graph.isolateAll regions) where
  consistent := consistent.isolateAll regions
  size_eq := Digraph.size_isolateAll graph regions
  table_eq := by
    intro v
    unfold table
    rw [Digraph.payload?_eq_marks, Digraph.marks_isolateAll, Digraph.payload?_eq_marks]
    split
    · cases graph.marks v <;> rfl
    · rfl
  live_iff := by
    intro v
    rw [Digraph.isLive_eq_marks, Digraph.marks_isolateAll, Digraph.isLive_eq_marks]
    by_cases member : v ∈ regions
    · rw [if_pos member]
      cases graph.marks v <;> simp [member]
    · simp [member]
  successors_eq := consistent.successors_isolateAll regions

namespace Pruned

variable {regions : List Nat} (wellFormed : graph.WellFormed)
  (pruned : Pruned graph regions changed)
include wellFormed pruned

omit wellFormed in
theorem successors_cases {u t : Nat} (edge : t ∈ changed.successors u) :
    u ∉ regions ∧ t ∉ regions ∧ t ∈ graph.successors u := by
  rw [pruned.successors_eq] at edge
  split at edge
  · cases edge
  · rename_i outside
    rw [List.mem_filter, decide_eq_true_eq] at edge
    exact ⟨outside, edge.2, edge.1⟩

/-- Detaching regions keeps region graphs well formed as long as the entry
stays. -/
theorem keeps_wellFormed (real : ∀ r ∈ regions, graph.isLive r = true)
    (entryStays : ∀ e ∈ graph.successors root, e ∉ regions) : changed.WellFormed := by
  have sameJump (j : Nat) : changed.isJump j = graph.isJump j := isJump_congr (pruned.table_eq j)
  refine
    { consistent := pruned.consistent
      entry := ?_
      ends := ?_
      nested := wellFormed.nested.grow fun found => .inl ((pruned.table_eq _).symm.trans found)
      jump_sink := ?_
      jump_entrant := ?_ }
  · obtain ⟨e, successors, live, notJump⟩ := wellFormed.entry
    have stays : e ∉ regions := entryStays e (by rw [successors]; simp)
    have rootStays : root ∉ regions := fun member =>
      wellFormed.ne_root_of_isLive (real root member) rfl
    refine ⟨e, ?_, (pruned.live_iff e).mpr ⟨live, stays⟩, by rw [sameJump, notJump]⟩
    rw [pruned.successors_eq, if_neg rootStays, successors]
    simp [stays]
  · intro u t edge
    obtain ⟨uStays, tStays, old⟩ := pruned.successors_cases edge
    exact ⟨(wellFormed.ends old).1.imp_right fun live => (pruned.live_iff u).mpr ⟨live, uStays⟩,
      (wellFormed.ends old).2.imp_right fun live => (pruned.live_iff t).mpr ⟨live, tStays⟩⟩
  · intro j isJump
    rw [sameJump] at isJump
    rw [List.eq_nil_iff_forall_not_mem]
    intro t edge
    have := (pruned.successors_cases edge).2.2
    rw [wellFormed.jump_sink isJump] at this
    cases this
  · intro j p q isJump fromP fromQ
    rw [sameJump] at isJump
    exact wellFormed.jump_entrant isJump (pruned.successors_cases fromP).2.2
      (pruned.successors_cases fromQ).2.2

end Pruned

/-! ## Copying a region -/

theorem exists_of_mem_right {ι κ : Type} {related : ι → κ → Prop} {left : List ι}
    {right : List κ} (all : List.Forall₂ related left right) {y : κ} (member : y ∈ right) :
    ∃ x ∈ left, related x y := by
  induction all with
  | nil => cases member
  | cons related' _ inductionHypothesis =>
      rcases List.mem_cons.mp member with rfl | later
      · exact ⟨_, List.mem_cons_self, related'⟩
      · obtain ⟨x, xMember, xRelated⟩ := inductionHypothesis later
        exact ⟨x, List.mem_cons_of_mem _ xMember, xRelated⟩

/-- A target of a copy stands for a target of what is copied: it is the same
region, or a new jump to the same place. -/
inductive Stands (graph changed : RegionGraph) : Nat → Nat → Prop where
  | same {t : Nat} (notJump : graph.isJump t = false) : Stands graph changed t t
  | jump {t t' place : Nat} {cond : Option Cond}
      (isJump : graph.table t = some ⟨.jump place, cond⟩) (later : graph.size < t')
      (isCopy : changed.table t' = some { shape := .jump place }) : Stands graph changed t t'

/-- Some predecessors of a region lead to a copy of it. -/
structure Copied (graph : RegionGraph) (v : Nat) (outside : List Nat) (changed : RegionGraph) :
    Prop where
  consistent : changed.Consistent
  size_lt : graph.size < changed.size
  table_old : ∀ {i}, i < graph.size → changed.table i = graph.table i
  table_copy : changed.table graph.size = some { shape := .tail v }
  table_fresh : ∀ {i}, graph.size < i → i < changed.size → ∃ t place cond,
    graph.table t = some ⟨.jump place, cond⟩ ∧ changed.table i = some { shape := .jump place }
  live_iff : ∀ i, changed.isLive i = true ↔
    graph.isLive i = true ∨ (graph.size ≤ i ∧ i < changed.size)
  successors_old : ∀ {u}, u ≠ graph.size → changed.successors u =
    if u ∈ outside then (graph.successors u).map (turn v graph.size) else graph.successors u
  successors_copy :
    List.Forall₂ (Stands graph changed) (graph.successors v) (changed.successors graph.size)
  /-- Every new jump is led to by the copy, once. -/
  fresh_edge : ∀ {i}, graph.size < i → i < changed.size → i ∈ changed.successors graph.size
  fresh_distinct :
    ((changed.successors graph.size).filter fun t => decide (graph.size < t)).Nodup

/-- The copy while its edges are added: those for the targets seen so far are
there, everything else is as it was. -/
private structure Linking (graph : RegionGraph) (v : Nat) (seen : List Nat)
    (changed : RegionGraph) : Prop where
  consistent : changed.Consistent
  size_lt : graph.size < changed.size
  table_old : ∀ {i}, i < graph.size → changed.table i = graph.table i
  table_copy : changed.table graph.size = some { shape := .tail v }
  table_fresh : ∀ {i}, graph.size < i → i < changed.size → ∃ t place cond,
    graph.table t = some ⟨.jump place, cond⟩ ∧ changed.table i = some { shape := .jump place }
  live_iff : ∀ i, changed.isLive i = true ↔
    graph.isLive i = true ∨ (graph.size ≤ i ∧ i < changed.size)
  successors_old : ∀ {u}, u ≠ graph.size → changed.successors u = graph.successors u
  successors_copy : List.Forall₂ (Stands graph changed) seen (changed.successors graph.size)
  fresh_edge : ∀ {i}, graph.size < i → i < changed.size → i ∈ changed.successors graph.size
  fresh_distinct :
    ((changed.successors graph.size).filter fun t => decide (graph.size < t)).Nodup

private theorem linking_start (consistent : graph.Consistent) (v : Nat) :
    Linking graph v [] (graph.addVertex { shape := .tail v }) := by
  have addedSize : (graph.addVertex { shape := Shape.tail v }).size = graph.size + 1 :=
    Digraph.size_addVertex _ _
  have same (u : Nat) : (graph.addVertex { shape := Shape.tail v }).successors u =
      graph.successors u := Digraph.neighbours_addVertex _ _ .forward u
  have none : graph.successors graph.size = [] :=
    Digraph.neighbours_eq_nil_of_size_le .forward (Nat.le_refl _)
  refine
    { consistent := consistent.addVertex _
      size_lt := by omega
      table_old := fun within => by rw [table_addVertex, if_neg (by omega)]
      table_copy := by rw [table_addVertex, if_pos rfl]
      table_fresh := fun later within => by omega
      live_iff := fun i => ?_
      successors_old := fun _ => same _
      successors_copy := ?_
      fresh_edge := fun later within => by omega
      fresh_distinct := ?_ }
  · rw [isLive_addVertex, addedSize]
    constructor
    · rintro (rfl | live)
      · exact .inr ⟨Nat.le_refl _, by omega⟩
      · exact .inl live
    · rintro (live | bounds)
      · exact .inr live
      · exact .inl (by omega)
  · rw [same, none]
    exact .nil
  · rw [same, none]
    exact List.nodup_nil

private theorem Stands.mono {later : RegionGraph} {t t' : Nat}
    (extends_ : ∀ {i node}, changed.table i = some node → later.table i = some node)
    (stands : Stands graph changed t t') : Stands graph later t t' := by
  cases stands with
  | same notJump => exact .same notJump
  | jump isJump after isCopy => exact .jump isJump after (extends_ isCopy)

/-- An edge behind those that leave the copy. -/
private theorem successors_addEdge_copy (within : graph.size < changed.size)
    (target u : Nat) : (changed.addEdge graph.size target).successors u =
      if u = graph.size then changed.successors u ++ [target] else changed.successors u := by
  rw [Digraph.successors_addEdge]
  by_cases isCopy : u = graph.size
  · subst isCopy
    rw [if_pos ⟨rfl, within⟩, if_pos rfl]
  · rw [if_neg (fun both => isCopy both.1.symm), if_neg isCopy]

/-- A new vertex behind an edge from the copy: what the table holds, what is
live and where edges lead. -/
private theorem table_linkNew (from_ : Nat) (node : Node) (i : Nat) :
    table ((changed.addVertex node).addEdge from_ changed.size) i =
      if i = changed.size then some node else changed.table i := by
  rw [table_congr_marks (Digraph.marks_addEdge ..), table_addVertex]

private theorem isLive_linkNew (from_ : Nat) (node : Node) (i : Nat) :
    ((changed.addVertex node).addEdge from_ changed.size).isLive i = true ↔
      i = changed.size ∨ changed.isLive i = true := by
  rw [isLive_congr_marks (Digraph.marks_addEdge ..), isLive_addVertex]

private theorem successors_linkNew (within : graph.size < changed.size) (node : Node) (u : Nat) :
    ((changed.addVertex node).addEdge graph.size changed.size).successors u =
      if u = graph.size then changed.successors u ++ [changed.size]
      else changed.successors u := by
  have same : (changed.addVertex node).successors u = changed.successors u :=
    Digraph.neighbours_addVertex _ _ .forward u
  have addedSize : (changed.addVertex node).size = changed.size + 1 := Digraph.size_addVertex _ _
  rw [successors_addEdge_copy (by omega), same]

/-- One more target, a jump: the copy leads to a new jump. -/
private theorem Linking.jump {v target place : Nat} {cond : Option Cond} {seen : List Nat}
    (linking : Linking graph v seen changed)
    (found : graph.table target = some ⟨.jump place, cond⟩) :
    Linking graph v (seen ++ [target])
      ((changed.addVertex { shape := .jump place }).addEdge graph.size changed.size) := by
  have sizeLt := linking.size_lt
  have addedSize : (changed.addVertex { shape := Shape.jump place }).size =
      changed.size + 1 := Digraph.size_addVertex _ _
  have newTable := @table_linkNew changed graph.size { shape := .jump place }
  have newSuccessors := successors_linkNew sizeLt { shape := .jump place }
  have grows {i : Nat} {node : Node} (found : changed.table i = some node) :
      table ((changed.addVertex { shape := Shape.jump place }).addEdge
        graph.size changed.size) i = some node := by
    have := lt_size_of_table found
    rw [newTable, if_neg (by omega), found]
  refine
    { consistent := (linking.consistent.addVertex _).addEdge (by omega) (by omega)
      size_lt := by rw [Digraph.size_addEdge]; omega
      table_old := fun before => by rw [newTable, if_neg (by omega), linking.table_old before]
      table_copy := grows linking.table_copy
      table_fresh := ?_
      live_iff := ?_
      successors_old := fun notCopy => by
        rw [newSuccessors, if_neg notCopy, linking.successors_old notCopy]
      successors_copy := ?_
      fresh_edge := ?_
      fresh_distinct := ?_ }
  · intro i later below
    rw [Digraph.size_addEdge, addedSize] at below
    by_cases last : i = changed.size
    · exact ⟨target, place, cond, found, by rw [newTable, if_pos last]⟩
    · obtain ⟨t, place', cond', isJump', copy⟩ := linking.table_fresh later (by omega)
      exact ⟨t, place', cond', isJump', grows copy⟩
  · intro i
    rw [isLive_linkNew, linking.live_iff, Digraph.size_addEdge, addedSize]
    constructor
    · rintro (rfl | live | bounds)
      · exact .inr ⟨by omega, by omega⟩
      · exact .inl live
      · exact .inr ⟨bounds.1, by omega⟩
    · rintro (live | bounds)
      · exact .inr (.inl live)
      · by_cases last : i = changed.size
        · exact .inl last
        · exact .inr (.inr ⟨bounds.1, by omega⟩)
  · rw [newSuccessors, if_pos rfl]
    refine List.rel_append (linking.successors_copy.imp fun t t' => Stands.mono grows)
      (.cons ?_ .nil)
    exact .jump found sizeLt (by rw [newTable, if_pos rfl])
  · intro i later below
    rw [Digraph.size_addEdge, addedSize] at below
    rw [newSuccessors, if_pos rfl, List.mem_append, List.mem_singleton]
    by_cases last : i = changed.size
    · exact .inr last
    · exact .inl (linking.fresh_edge later (by omega))
  · rw [newSuccessors, if_pos rfl, List.filter_append]
    refine List.nodup_append.mpr ⟨linking.fresh_distinct, ?_, ?_⟩
    · exact List.Pairwise.filter _ (List.pairwise_singleton _ _)
    intro t before t' last same
    have := linking.consistent.inRange _ t (List.mem_filter.mp before).1
    have := List.mem_singleton.mp (List.mem_filter.mp last).1
    omega

/-- One more target that is no jump: the copy leads to the target itself. -/
private theorem Linking.shared {v target : Nat} {seen : List Nat}
    (linking : Linking graph v seen changed) (within : target < graph.size)
    (notJump : graph.isJump target = false) :
    Linking graph v (seen ++ [target]) (changed.addEdge graph.size target) := by
  have sizeLt := linking.size_lt
  have marks (i : Nat) := Digraph.marks_addEdge changed graph.size target i
  have newTable (i : Nat) : table (changed.addEdge graph.size target) i = changed.table i :=
    table_congr_marks (marks i)
  have newSuccessors := successors_addEdge_copy sizeLt target
  have sameSize : (changed.addEdge graph.size target).size = changed.size :=
    Digraph.size_addEdge _ _ _
  refine
    { consistent := linking.consistent.addEdge (by omega) (by omega)
      size_lt := by omega
      table_old := fun before => by rw [newTable, linking.table_old before]
      table_copy := by rw [newTable, linking.table_copy]
      table_fresh := fun later below => by
        rw [newTable]
        exact linking.table_fresh later (by omega)
      live_iff := fun i => by
        rw [isLive_congr_marks (marks i), linking.live_iff, sameSize]
      successors_old := fun notCopy => by
        rw [newSuccessors, if_neg notCopy, linking.successors_old notCopy]
      successors_copy := ?_
      fresh_edge := fun later below => by
        rw [newSuccessors, if_pos rfl]
        exact List.mem_append_left _ (linking.fresh_edge later (by omega))
      fresh_distinct := by
        rw [newSuccessors, if_pos rfl, List.filter_append]
        simpa [Nat.not_lt.mpr (Nat.le_of_lt within)] using linking.fresh_distinct }
  rw [newSuccessors, if_pos rfl]
  exact List.rel_append
    (linking.successors_copy.imp fun t t' => Stands.mono fun found => by rwa [newTable])
    (.cons (.same notJump) .nil)

theorem size_le_linkCopy (copy : Nat) (graph : RegionGraph) (target : Nat) :
    graph.size ≤ (linkCopy copy graph target).size := by
  unfold linkCopy
  split
  · rw [Digraph.size_addEdge, Digraph.size_addVertex]
    omega
  · exact Nat.le_of_eq (Digraph.size_addEdge ..).symm

theorem size_le_linkCopies (copy : Nat) (graph : RegionGraph) (targets : List Nat) :
    graph.size ≤ (targets.foldl (linkCopy copy) graph).size := by
  induction targets generalizing graph with
  | nil => exact Nat.le_refl _
  | cons target rest inductionHypothesis =>
      exact Nat.le_trans (size_le_linkCopy copy graph target) (inductionHypothesis _)

/-- One more target: an edge to it, or to a new jump if it is one. -/
private theorem Linking.step {v target : Nat} {seen : List Nat}
    (linking : Linking graph v seen changed) (within : target < graph.size) :
    Linking graph v (seen ++ [target]) (linkCopy graph.size changed target) := by
  have sameTarget := linking.table_old within
  cases isJump : graph.isJump target with
  | true =>
      obtain ⟨place, cond, found⟩ := isJump_iff.mp isJump
      unfold linkCopy
      rw [sameTarget, found]
      exact linking.jump found
  | false =>
      unfold linkCopy
      split
      · rename_i place cond found
        rw [sameTarget] at found
        rw [isJump_iff.mpr ⟨place, cond, found⟩] at isJump
        cases isJump
      · exact linking.shared within isJump

private theorem Linking.foldl {v : Nat} {seen : List Nat} (targets : List Nat)
    (linking : Linking graph v seen changed) (within : ∀ t ∈ targets, t < graph.size) :
    Linking graph v (seen ++ targets) (targets.foldl (linkCopy graph.size) changed) := by
  induction targets generalizing seen changed with
  | nil => rwa [List.append_nil]
  | cons target rest inductionHypothesis =>
      have next := linking.step (within target List.mem_cons_self)
      have all := inductionHypothesis next fun t member => within t (List.mem_cons_of_mem _ member)
      rwa [List.append_assoc, List.singleton_append] at all

theorem copied_giveCopy (consistent : graph.Consistent) {v : Nat} (within : v < graph.size)
    {outside : List Nat} (entering : ∀ p ∈ outside, v ∈ graph.successors p) :
    Copied graph v outside (graph.giveCopy v outside) := by
  have linking := (linking_start consistent v).foldl (graph.successors v)
    fun t member => consistent.inRange v t member
  rw [List.nil_append] at linking
  revert linking
  suffices all : ∀ linked : RegionGraph, Linking graph v (graph.successors v) linked →
      ∀ final : RegionGraph,
        final = outside.foldl (fun graph' p => graph'.redirect p v graph.size) linked →
        Copied graph v outside final from fun linking => all _ linking _ rfl
  intro linked linking final isFinal
  have sizeLt := linking.size_lt
  have marks (i : Nat) : final.marks i = linked.marks i :=
    isFinal ▸ marks_foldl_redirect outside v graph.size linked i
  have sameSize : final.size = linked.size :=
    isFinal ▸ size_foldl_redirect outside v graph.size linked
  have outsideOld {p : Nat} (member : p ∈ outside) : p < graph.size :=
    Digraph.lt_size_of_mem_neighbours (entering p member)
  have turned (u : Nat) : final.successors u =
      if u ∈ outside ∧ u < linked.size then (linked.successors u).map (turn v graph.size)
      else linked.successors u :=
    isFinal ▸ successors_foldl_redirect outside (Nat.ne_of_lt within) linked u
  have consistent' : final.Consistent :=
    isFinal ▸ consistent_foldl_redirect outside v linking.consistent sizeLt
  have copyOutside : graph.size ∉ outside := fun member => by
    have := outsideOld member
    omega
  refine
    { consistent := consistent'
      size_lt := by omega
      table_old := fun before => by rw [table_congr_marks (marks _), linking.table_old before]
      table_copy := by rw [table_congr_marks (marks _), linking.table_copy]
      table_fresh := fun later below => by
        rw [table_congr_marks (marks _)]
        exact linking.table_fresh later (by omega)
      live_iff := fun i => by rw [isLive_congr_marks (marks i), linking.live_iff, sameSize]
      successors_old := ?_
      successors_copy := ?_
      fresh_edge := ?_
      fresh_distinct := ?_ }
  · intro u notCopy
    rw [turned, linking.successors_old notCopy]
    by_cases member : u ∈ outside
    · have := outsideOld member
      rw [if_pos ⟨member, by omega⟩, if_pos member]
    · rw [if_neg (fun both => member both.1), if_neg member]
  · rw [turned, if_neg (fun both => copyOutside both.1)]
    exact linking.successors_copy.imp fun t t' =>
      Stands.mono fun found => by rwa [table_congr_marks (marks _)]
  · intro i later below
    rw [turned, if_neg (fun both => copyOutside both.1)]
    exact linking.fresh_edge later (by omega)
  · rw [turned, if_neg (fun both => copyOutside both.1)]
    exact linking.fresh_distinct

namespace Copied

variable {v : Nat} {outside : List Nat} (wellFormed : graph.WellFormed)
  (copied : Copied graph v outside changed)
include wellFormed copied

omit wellFormed in
/-- What the table holds: an old node, the copy, or a jump that copies one. -/
theorem table_cases {i : Nat} {node : Node} (found : changed.table i = some node) :
    (i < graph.size ∧ graph.table i = some node) ∨
      (i = graph.size ∧ node = { shape := .tail v }) ∨
      (graph.size < i ∧ ∃ t place cond, graph.table t = some ⟨.jump place, cond⟩ ∧
        node = { shape := .jump place }) := by
  have within := lt_size_of_table found
  rcases Nat.lt_trichotomy i graph.size with old | rfl | later
  · rw [copied.table_old old] at found
    exact .inl ⟨old, found⟩
  · rw [copied.table_copy] at found
    exact .inr (.inl ⟨rfl, (Option.some.inj found).symm⟩)
  · obtain ⟨t, place, cond, isJump, copy⟩ := copied.table_fresh later within
    rw [copy] at found
    exact .inr (.inr ⟨later, t, place, cond, isJump, (Option.some.inj found).symm⟩)

omit wellFormed in
theorem isJump_cases {j : Nat} (isJump : changed.isJump j = true) :
    (j < graph.size ∧ graph.isJump j = true) ∨ (graph.size < j ∧ j < changed.size) := by
  obtain ⟨target, cond, found⟩ := isJump_iff.mp isJump
  rcases copied.table_cases found with ⟨old, found'⟩ | ⟨_, tail⟩ | ⟨later, _⟩
  · exact .inl ⟨old, isJump_iff.mpr ⟨target, cond, found'⟩⟩
  · cases tail
  · exact .inr ⟨later, lt_size_of_table found⟩

omit wellFormed in
/-- An edge of the copy leads where an edge of the region leads, or to a new
jump. -/
theorem successors_copy_cases {t : Nat} (edge : t ∈ changed.successors graph.size) :
    (t ∈ graph.successors v ∧ graph.isJump t = false) ∨ graph.size < t := by
  obtain ⟨t', member, stands⟩ := exists_of_mem_right copied.successors_copy edge
  cases stands with
  | same notJump => exact .inl ⟨member, notJump⟩
  | jump _ later _ => exact .inr later

/-- An edge of an old region is an old one, or leads from outside to the
copy. -/
theorem successors_old_cases {u t : Nat} (notCopy : u ≠ graph.size)
    (edge : t ∈ changed.successors u) :
    (t = graph.size ∧ u ∈ outside ∧ v ∈ graph.successors u) ∨
      (t < graph.size ∧ t ∈ graph.successors u) := by
  have old {t : Nat} (member : t ∈ graph.successors u) : t < graph.size :=
    wellFormed.consistent.inRange u t member
  rw [copied.successors_old notCopy] at edge
  split at edge
  · rename_i isOutside
    obtain ⟨t', member, rfl⟩ := List.mem_map.mp edge
    by_cases isRegion : t' = v
    · rw [isRegion, turn_old]
      exact .inl ⟨rfl, isOutside, isRegion ▸ member⟩
    · rw [turn_of_ne isRegion]
      exact .inr ⟨old member, member⟩
  · exact .inr ⟨old edge, edge⟩

omit wellFormed in
private theorem copy_isLive : changed.isLive graph.size = true :=
  (copied.live_iff _).mpr (.inr ⟨Nat.le_refl _, copied.size_lt⟩)

omit wellFormed in
private theorem ne_copy_of_isJump {j : Nat} (isJump : changed.isJump j = true) :
    j ≠ graph.size := by
  rcases copied.isJump_cases isJump with ⟨_, _⟩ | ⟨_, _⟩ <;> omega

/-- The root goes on leading to one region. -/
private theorem entry_after :
    ∃ e, changed.successors root = [e] ∧ changed.isLive e = true ∧ changed.isJump e = false := by
  obtain ⟨e, successors, live, notJump⟩ := wellFormed.entry
  have rootOld : root ≠ graph.size := by
    have := wellFormed.consistent.atLeastTwo
    simp only [root]
    omega
  have stays : changed.isLive e = true ∧ changed.isJump e = false :=
    ⟨(copied.live_iff e).mpr (.inl live),
      by rw [isJump_congr (copied.table_old (Digraph.lt_size_of_isLive live)), notJump]⟩
  have changedRoot := copied.successors_old rootOld
  rw [successors, List.map_singleton] at changedRoot
  split at changedRoot
  · by_cases isRegion : e = v
    · rw [isRegion, turn_old] at changedRoot
      exact ⟨_, changedRoot, copied.copy_isLive,
        Bool.eq_false_iff.mpr fun isJump => copied.ne_copy_of_isJump isJump rfl⟩
    · rw [turn_of_ne isRegion] at changedRoot
      exact ⟨e, changedRoot, stays⟩
  · exact ⟨e, changedRoot, stays⟩

/-- The copy refers to the region, a new jump to where an old one leads. -/
private theorem nested_after (live : graph.isLive v = true) : changed.table.Nested := by
  refine wellFormed.nested.grow fun found => ?_
  rcases copied.table_cases found with ⟨_, old⟩ | ⟨rfl, rfl⟩ | ⟨later, t, place, cond, isJump, rfl⟩
  · exact .inl old
  · refine .inr ⟨fun r refers => ?_, nofun⟩
    rw [List.mem_singleton.mp refers]
    exact Digraph.lt_size_of_isLive live
  · refine .inr ⟨fun r refers => ?_, nofun⟩
    rw [List.mem_singleton.mp refers]
    have := wellFormed.nested.below isJump place (by simp [Node.references])
    have := lt_size_of_table isJump
    omega

/-- An old jump is entered from where it was: copies lead to jumps of their
own. -/
private theorem enters_old_jump {j u : Nat} (old : j < graph.size)
    (isJump : graph.isJump j = true) (enters : j ∈ changed.successors u) :
    j ∈ graph.successors u := by
  by_cases isCopy : u = graph.size
  · rw [isCopy] at enters
    rcases copied.successors_copy_cases enters with ⟨_, notJump⟩ | later
    · rw [isJump] at notJump
      cases notJump
    · omega
  · rcases copied.successors_old_cases wellFormed isCopy enters with ⟨rfl, _⟩ | ⟨_, edge⟩
    · omega
    · exact edge

/-- A new jump is entered from the copy. -/
private theorem enters_fresh {j u : Nat} (later : graph.size < j)
    (enters : j ∈ changed.successors u) : u = graph.size := by
  by_contra notCopy
  rcases copied.successors_old_cases wellFormed notCopy enters with ⟨rfl, _⟩ | ⟨old, _⟩ <;> omega

/-- Copying a region keeps region graphs well formed. -/
theorem keeps_wellFormed (live : graph.isLive v = true) : changed.WellFormed := by
  have stays {i : Nat} (live : graph.isLive i = true) : changed.isLive i = true :=
    (copied.live_iff i).mpr (.inl live)
  refine
    { consistent := copied.consistent
      entry := copied.entry_after wellFormed
      ends := ?_
      nested := copied.nested_after wellFormed live
      jump_sink := ?_
      jump_entrant := ?_ }
  · intro u t edge
    by_cases isCopy : u = graph.size
    · subst isCopy
      refine ⟨.inr copied.copy_isLive, ?_⟩
      rcases copied.successors_copy_cases edge with ⟨old, _⟩ | later
      · exact (wellFormed.ends old).2.imp_right stays
      · exact .inr ((copied.live_iff t).mpr (.inr ⟨by omega, copied.consistent.inRange _ t edge⟩))
    · rcases copied.successors_old_cases wellFormed isCopy edge with ⟨rfl, _, old⟩ | ⟨_, old⟩
      · exact ⟨(wellFormed.ends old).1.imp_right stays, .inr copied.copy_isLive⟩
      · exact ⟨(wellFormed.ends old).1.imp_right stays, (wellFormed.ends old).2.imp_right stays⟩
  · intro j isJump
    have none : graph.successors j = [] := by
      rcases copied.isJump_cases isJump with ⟨_, wasJump⟩ | ⟨later, _⟩
      · exact wellFormed.jump_sink wasJump
      · exact Digraph.neighbours_eq_nil_of_size_le .forward (by omega)
    rw [copied.successors_old (copied.ne_copy_of_isJump isJump), none]
    split <;> rfl
  · intro j p q isJump fromP fromQ
    rcases copied.isJump_cases isJump with ⟨old, wasJump⟩ | ⟨later, _⟩
    · exact wellFormed.jump_entrant wasJump (copied.enters_old_jump wellFormed old wasJump fromP)
        (copied.enters_old_jump wellFormed old wasJump fromQ)
    · rw [copied.enters_fresh wellFormed later fromP, copied.enters_fresh wellFormed later fromQ]

end Copied

end FlowRegions.RegionGraph
