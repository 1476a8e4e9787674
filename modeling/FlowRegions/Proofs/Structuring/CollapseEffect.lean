import FlowRegions.Structuring.Collapse
import FlowRegions.Proofs.Structuring.Regions

/-!
Contract: what collapsing a region does to the region graph.

Owns:
- `RegionGraph.Fits`: a collapse names live members that are entered at one of
  them only, and leads where they lead;
- `RegionGraph.Collapsed`: the graph behind a collapse in terms of the graph
  before it, and `collapsed_collapse`, that performing a collapse that fits has
  this effect;
- that the effect keeps graphs well formed.
-/

namespace FlowRegions.RegionGraph

open FlowRegions.Digraph (root terminator)

variable {graph changed : RegionGraph} {collapse : Collapse} {new : Nat}

/-- A collapse replaces a single-entry region by a vertex that leads where the
region leads. -/
structure Fits (graph : RegionGraph) (collapse : Collapse) : Prop where
  entry_mem : collapse.entry ∈ collapse.members
  live : ∀ m ∈ collapse.members, graph.isLive m = true
  /-- Members but the entry are entered from members only. -/
  single : ∀ {p m}, m ∈ collapse.members → m ≠ collapse.entry → m ∈ graph.successors p →
    p ∈ collapse.members
  /-- The new vertex leads only where members lead. -/
  out_edge : ∀ t ∈ collapse.out, ∃ m ∈ collapse.members, t ∈ graph.successors m
  /-- Of the members it leads to the entry only. -/
  out_entry : ∀ t ∈ collapse.out, t ∈ collapse.members → t = collapse.entry
  /-- Every way out of the members is kept. -/
  covers : ∀ m ∈ collapse.members, ∀ t ∈ graph.exits m,
    t ∈ collapse.members ∨ t ∈ collapse.out
  returns_iff : terminator ∈ collapse.out ∨ collapse.returns = true ↔
    ∃ m ∈ collapse.members, graph.returns m = true
  /-- The entry is no jump. -/
  entry_branches : graph.branches collapse.entry ≠ []
  node_kind : collapse.node.kind ≠ .jump
  node_below : ∀ r ∈ collapse.node.references,
    r < graph.size ∨ (r = graph.size ∧ collapse.part.isSome = true)
  node_parts : ∀ {nodes}, collapse.node.shape = .seq nodes → nodes ≠ []
  part_shape : ∀ part, collapse.part = some part →
    ∃ nodes, part = { shape := .seq nodes } ∧ nodes ≠ [] ∧ ∀ r ∈ nodes, r < graph.size

def turn (old new target : Nat) : Nat :=
  if target = old then new else target

theorem turn_old (old new : Nat) : turn old new old = new :=
  if_pos rfl

theorem turn_of_ne {old new target : Nat} (different : target ≠ old) :
    turn old new target = target :=
  if_neg different

theorem map_turn_of_notMem {old new : Nat} {targets : List Nat} (absent : old ∉ targets) :
    targets.map (turn old new) = targets := by
  have same : targets.map (turn old new) = targets.map id := by
    refine List.map_congr_left fun target member => turn_of_ne ?_
    rintro rfl
    exact absent member
  rw [same, List.map_id]

/-- The graph behind a collapse. -/
structure Collapsed (graph : RegionGraph) (collapse : Collapse) (new : Nat)
    (changed : RegionGraph) : Prop where
  consistent : changed.Consistent
  size_eq : changed.size = new + 1
  new_eq : new = graph.size + (if collapse.part.isSome then 1 else 0)
  table_old : ∀ {v}, v < graph.size → changed.table v = graph.table v
  table_new : changed.table new = some collapse.node
  table_part : ∀ part, collapse.part = some part → changed.table graph.size = some part
  live_iff : ∀ v, changed.isLive v = true ↔
    v = new ∨ (graph.isLive v = true ∧ v ∉ collapse.members)
  successors_new : changed.successors new = collapsedTargets collapse new
  successors_old : ∀ {v}, v ≠ new → changed.successors v =
    if v ∈ collapse.members then []
    else (graph.successors v).map (turn collapse.entry new)

/-! ## The effect of each stage -/

theorem successors_foldl_redirect (sources : List Nat) {old new : Nat} (different : old ≠ new)
    (graph : RegionGraph) (w : Nat) :
    Digraph.successors (sources.foldl (fun graph p => graph.redirect p old new) graph) w =
      if w ∈ sources ∧ w < graph.size then (graph.successors w).map (turn old new)
      else graph.successors w := by
  have settled (targets : List Nat) :
      (targets.map (turn old new)).map (turn old new) = targets.map (turn old new) := by
    rw [map_turn_of_notMem]
    intro member
    obtain ⟨target, _, turned⟩ := List.mem_map.mp member
    unfold turn at turned
    split at turned
    · exact different turned.symm
    · exact absurd turned (by assumption)
  induction sources generalizing graph with
  | nil => simp
  | cons p sources inductionHypothesis =>
      have step : (graph.redirect p old new).successors w =
          if p = w ∧ w < graph.size then (graph.successors w).map (turn old new)
          else graph.successors w := Digraph.successors_redirect graph p old new w
      rw [List.foldl_cons, inductionHypothesis, Digraph.size_redirect, step]
      by_cases first : p = w
      · subst first
        by_cases within : p < graph.size
        · simp [within, settled]
        · simp [within]
      · have notFirst : w ≠ p := fun same => first same.symm
        simp [first, notFirst]

theorem size_foldl_redirect (sources : List Nat) (old new : Nat) (graph : RegionGraph) :
    Digraph.size (sources.foldl (fun graph p => graph.redirect p old new) graph) = graph.size := by
  induction sources generalizing graph with
  | nil => rfl
  | cons p sources inductionHypothesis =>
      rw [List.foldl_cons, inductionHypothesis, Digraph.size_redirect]

theorem consistent_foldl_redirect (sources : List Nat) (old : Nat) {new : Nat}
    (consistent : graph.Consistent) (within : new < graph.size) :
    Digraph.Consistent (sources.foldl (fun graph p => graph.redirect p old new) graph) := by
  induction sources generalizing graph with
  | nil => exact consistent
  | cons p sources inductionHypothesis =>
      exact inductionHypothesis (consistent.redirect within) (by rwa [Digraph.size_redirect])

theorem marks_foldl_redirect (sources : List Nat) (old new : Nat) (graph : RegionGraph) (w : Nat) :
    Digraph.marks (sources.foldl (fun graph p => graph.redirect p old new) graph) w =
      graph.marks w :=
  Digraph.marks_foldl (fun graph p => graph.redirect p old new)
    (fun graph p w => Digraph.marks_redirect graph p old new w) sources graph w

/-- Predecessors outside the members are led to the new vertex. -/
theorem successors_redirectOutside (consistent : graph.Consistent) (members : List Nat)
    {entry new : Nat} (different : entry ≠ new) (v : Nat) :
    Digraph.successors (graph.redirectOutside members entry new) v =
      if v ∈ members then graph.successors v else (graph.successors v).map (turn entry new) := by
  have outside_iff : v ∈ (graph.entrants entry).filter (fun p => !members.contains p) ↔
      entry ∈ graph.successors v ∧ v ∉ members := by
    rw [List.mem_filter, mem_entrants consistent]
    simp
  unfold redirectOutside
  dsimp only
  rw [successors_foldl_redirect _ different]
  simp only [outside_iff]
  by_cases member : v ∈ members
  · simp [member]
  · by_cases enters : entry ∈ graph.successors v
    · have within : v < graph.size := Digraph.lt_size_of_mem_neighbours enters
      simp [member, enters, within]
    · rw [if_neg (fun both => enters both.1.1), if_neg member, map_turn_of_notMem enters]

theorem size_redirectOutside (graph : RegionGraph) (members : List Nat) (entry new : Nat) :
    Digraph.size (graph.redirectOutside members entry new) = graph.size :=
  size_foldl_redirect _ _ _ _

theorem marks_redirectOutside (graph : RegionGraph) (members : List Nat) (entry new v : Nat) :
    Digraph.marks (graph.redirectOutside members entry new) v = graph.marks v :=
  marks_foldl_redirect _ _ _ _ v

theorem consistent_redirectOutside (consistent : graph.Consistent) (members : List Nat)
    (entry : Nat) {new : Nat} (within : new < graph.size) :
    Digraph.Consistent (graph.redirectOutside members entry new) :=
  consistent_foldl_redirect _ _ consistent within

def withPart (graph : RegionGraph) : Option Node → RegionGraph
  | some part => graph.addPart part
  | none => graph

structure PartAdded (graph : RegionGraph) (part : Option Node) (changed : RegionGraph) : Prop where
  consistent : changed.Consistent
  size_eq : changed.size = graph.size + (if part.isSome then 1 else 0)
  successors_eq : ∀ v, changed.successors v = graph.successors v
  entrants_eq : ∀ v, v < graph.size → changed.entrants v = graph.entrants v
  table_old : ∀ {v}, v < graph.size → changed.table v = graph.table v
  table_part : ∀ node, part = some node → changed.table graph.size = some node
  live_eq : ∀ v, changed.isLive v = graph.isLive v

theorem marks_addPart (graph : RegionGraph) (node : Node) (v : Nat) :
    (graph.addPart node).marks v =
      if v = graph.size then some (some node, true) else graph.marks v := by
  unfold addPart
  rw [Digraph.marks_isolate, Digraph.marks_addVertex]
  by_cases same : v = graph.size
  · simp [same]
  · rw [if_neg (fun equal => same equal.symm), if_neg same, if_neg same]

/-- A vertex that is added and detached changes no edges. -/
theorem neighbours_addPart (consistent : graph.Consistent) (node : Node) (direction : Direction)
    (v : Nat) : (graph.addPart node).neighbours direction v = graph.neighbours direction v := by
  have added := consistent.addVertex node
  have kept : ((graph.addVertex node).neighbours direction v).filter (· != graph.size) =
      graph.neighbours direction v := by
    rw [Digraph.neighbours_addVertex, List.filter_eq_self]
    intro w member
    exact bne_iff_ne.mpr (Nat.ne_of_lt (consistent.mem_neighbours_lt member))
  have isolated : (graph.addPart node).neighbours direction v =
      if v = graph.size then []
      else ((graph.addVertex node).neighbours direction v).filter (· != graph.size) := by
    cases direction with
    | forward => exact added.successors_isolate graph.size v
    | backward => exact added.predecessors_isolate graph.size v
  rw [isolated, kept]
  split
  · rename_i isNew
    exact (Digraph.neighbours_eq_nil_of_size_le direction (Nat.le_of_eq isNew.symm)).symm
  · rfl

theorem partAdded (consistent : graph.Consistent) (part : Option Node) :
    PartAdded graph part (graph.withPart part) := by
  cases part with
  | none =>
      exact ⟨consistent, rfl, fun _ => rfl, fun _ _ => rfl, fun _ => rfl, by simp, fun _ => rfl⟩
  | some node =>
      show PartAdded graph (some node) (graph.addPart node)
      refine
        { consistent := (consistent.addVertex node).isolate graph.size
          size_eq := by simp [addPart]
          successors_eq := neighbours_addPart consistent node .forward
          entrants_eq := fun v _ =>
            congrArg List.eraseDups (neighbours_addPart consistent node .backward v)
          table_old := fun {v} within => ?_
          table_part := fun node' same => ?_
          live_eq := fun v => ?_ }
      · unfold table
        rw [Digraph.payload?_eq_marks, Digraph.payload?_eq_marks, marks_addPart,
          if_neg (Nat.ne_of_lt within)]
      · cases same
        unfold table
        rw [Digraph.payload?_eq_marks, marks_addPart, if_pos rfl]
        rfl
      · rw [Digraph.isLive_eq_marks, Digraph.isLive_eq_marks, marks_addPart]
        split
        · rename_i same
          rw [same, (Digraph.marks_eq_none_iff graph graph.size).mpr (Nat.le_refl _)]
          rfl
        · rfl

/-! ## The effect of a collapse -/

/-- A collapse by its stages. -/
theorem collapse_eq (graph : RegionGraph) (collapse : Collapse) :
    graph.collapse collapse =
      ((graph.withPart collapse.part).size,
        (Digraph.addEdges
          (redirectOutside ((graph.withPart collapse.part).addVertex collapse.node)
            collapse.members collapse.entry (graph.withPart collapse.part).size)
          (graph.withPart collapse.part).size
          (collapsedTargets collapse (graph.withPart collapse.part).size)).isolateAll
            collapse.members) := by
  unfold RegionGraph.collapse withPart
  cases collapse.part <;> rfl

theorem mem_collapsedTargets {t : Nat} :
    t ∈ collapsedTargets collapse new ↔
      (∃ target ∈ collapse.out, turn collapse.entry new target = t) ∨
        (t = terminator ∧ collapse.returns = true ∧ terminator ∉ collapse.out) := by
  have out : t ∈ collapse.out.map (fun target => if target = collapse.entry then new else target) ↔
      ∃ target ∈ collapse.out, turn collapse.entry new target = t := List.mem_map
  unfold collapsedTargets
  dsimp only
  split
  · rename_i returns
    simp only [Bool.and_eq_true, Bool.not_eq_true', List.contains_eq_mem,
      decide_eq_false_iff_not] at returns
    rw [List.mem_append, List.mem_singleton, out]
    exact or_congr_right ⟨fun same => ⟨same, returns⟩, fun both => both.1⟩
  · rename_i stays
    simp only [Bool.and_eq_true, Bool.not_eq_true', List.contains_eq_mem,
      decide_eq_false_iff_not] at stays
    rw [out]
    exact ⟨.inl, fun either => either.resolve_right fun both => stays both.2⟩

/-- The members a collapse names lie in the graph, so the new vertex is none of
them. -/
theorem Fits.new_notMem (fits : graph.Fits collapse) (later : graph.size ≤ new) :
    new ∉ collapse.members := by
  intro member
  have := Digraph.lt_size_of_isLive (fits.live new member)
  omega

theorem Fits.root_notMem (fits : graph.Fits collapse) (wellFormed : graph.WellFormed) :
    root ∉ collapse.members :=
  fun member => wellFormed.ne_root_of_isLive (fits.live _ member) rfl

/-- The new vertex leads to itself or to what is left. -/
theorem Fits.collapsedTargets_within (fits : graph.Fits collapse) (wellFormed : graph.WellFormed)
    (later : graph.size ≤ new) {t : Nat} (member : t ∈ collapsedTargets collapse new) :
    t ≤ new ∧ t ∉ collapse.members := by
  rcases mem_collapsedTargets.mp member with ⟨target, isOut, rfl⟩ | ⟨rfl, _⟩
  · by_cases isEntry : target = collapse.entry
    · rw [isEntry, turn_old]
      exact ⟨Nat.le_refl new, fits.new_notMem later⟩
    · rw [turn_of_ne isEntry]
      obtain ⟨m, _, edge⟩ := fits.out_edge target isOut
      have := wellFormed.consistent.inRange m target edge
      exact ⟨by omega, fun isMember => isEntry (fits.out_entry target isOut isMember)⟩
  · have := wellFormed.consistent.atLeastTwo
    refine ⟨by simp only [terminator]; omega, fun isMember => ?_⟩
    exact wellFormed.ne_terminator_of_isLive (fits.live _ isMember) rfl

/-! ## Performing a collapse -/

/-- The new vertex is there and is entered in place of the entry; it leads nowhere
yet. -/
private structure Entered (graph base : RegionGraph) (collapse : Collapse)
    (entered : RegionGraph) : Prop where
  consistent : entered.Consistent
  size_eq : entered.size = base.size + 1
  successors_eq : ∀ v, entered.successors v =
    if v ∈ collapse.members then graph.successors v
    else (graph.successors v).map (turn collapse.entry base.size)
  marks_eq : ∀ v, entered.marks v =
    if v = base.size then some (some collapse.node, false) else base.marks v

private theorem entered_redirectOutside {base : RegionGraph}
    (part : PartAdded graph collapse.part base) (entryBelow : collapse.entry < base.size) :
    Entered graph base collapse (redirectOutside (Digraph.addVertex base collapse.node)
      collapse.members collapse.entry base.size) := by
  have added : Digraph.Consistent (Digraph.addVertex base collapse.node) :=
    part.consistent.addVertex collapse.node
  have addedSize : (Digraph.addVertex base collapse.node).size = base.size + 1 :=
    Digraph.size_addVertex base collapse.node
  refine
    { consistent := consistent_redirectOutside added _ _ (by omega)
      size_eq := by rw [size_redirectOutside, addedSize]
      successors_eq := fun v => ?_
      marks_eq := fun v => by rw [marks_redirectOutside, Digraph.marks_addVertex] }
  have same : (Digraph.addVertex base collapse.node).successors v = graph.successors v :=
    (Digraph.neighbours_addVertex base collapse.node .forward v).trans (part.successors_eq v)
  rw [successors_redirectOutside added _ (by omega), same]

namespace Entered

variable {base entered : RegionGraph} (holds : Entered graph base collapse entered)
  (wellFormed : graph.WellFormed) (fits : graph.Fits collapse) (later : graph.size ≤ base.size)
include holds wellFormed fits later

private theorem consistent_linked :
    (entered.addEdges base.size (collapsedTargets collapse base.size)).Consistent := by
  have sizeEq := holds.size_eq
  refine holds.consistent.addEdges (by omega) fun t member => ?_
  have := (fits.collapsedTargets_within wellFormed later member).1
  omega

omit wellFormed in
private theorem successors_linked (v : Nat) :
    (entered.addEdges base.size (collapsedTargets collapse base.size)).successors v =
      if v = base.size then collapsedTargets collapse base.size
      else if v ∈ collapse.members then graph.successors v
      else (graph.successors v).map (turn collapse.entry base.size) := by
  have none : graph.successors base.size = [] :=
    Digraph.neighbours_eq_nil_of_size_le .forward later
  rw [Digraph.successors_addEdges, holds.successors_eq, holds.size_eq]
  by_cases isNew : v = base.size
  · subst isNew
    rw [if_pos ⟨rfl, by omega⟩, if_neg (fits.new_notMem later), none, if_pos rfl]
    rfl
  · rw [if_neg (fun both => isNew both.1.symm), if_neg isNew]

/-- Nothing that is left leads to a member, so isolating the members removes their
own edges only. -/
private theorem successors_left (v : Nat) :
    ((entered.addEdges base.size (collapsedTargets collapse base.size)).isolateAll
      collapse.members).successors v =
      if v = base.size then collapsedTargets collapse base.size
      else if v ∈ collapse.members then []
      else (graph.successors v).map (turn collapse.entry base.size) := by
  have newNotMember := fits.new_notMem later
  rw [(holds.consistent_linked wellFormed fits later).successors_isolateAll,
    holds.successors_linked fits later]
  by_cases isNew : v = base.size
  · subst isNew
    simp only [if_neg newNotMember, if_true]
    rw [List.filter_eq_self]
    intro t member
    simpa using (fits.collapsedTargets_within wellFormed later member).2
  · by_cases member : v ∈ collapse.members
    · simp [member, isNew]
    · simp only [if_neg member, if_neg isNew]
      rw [List.filter_eq_self]
      intro t turned
      obtain ⟨target, edge, rfl⟩ := List.mem_map.mp turned
      by_cases isEntry : target = collapse.entry
      · rw [isEntry, turn_old]
        simpa using newNotMember
      · rw [turn_of_ne isEntry]
        simpa using fun isMember => member (fits.single isMember isEntry edge)

omit wellFormed in
private theorem marks_left (v : Nat) :
    ((entered.addEdges base.size (collapsedTargets collapse base.size)).isolateAll
      collapse.members).marks v =
      if v ∈ collapse.members then (base.marks v).map fun mark => (mark.1, true)
      else if v = base.size then some (some collapse.node, false) else base.marks v := by
  rw [Digraph.marks_isolateAll, Digraph.marks_addEdges, holds.marks_eq]
  by_cases member : v ∈ collapse.members
  · have notNew : v ≠ base.size := fun same => fits.new_notMem later (same ▸ member)
    simp [member, notNew]
  · simp [member]

omit wellFormed in
private theorem table_left (v : Nat) : table
    ((entered.addEdges base.size (collapsedTargets collapse base.size)).isolateAll
      collapse.members) v = if v = base.size then some collapse.node else base.table v := by
  unfold table
  rw [Digraph.payload?_eq_marks, holds.marks_left fits later, Digraph.payload?_eq_marks]
  by_cases member : v ∈ collapse.members
  · have notNew : v ≠ base.size := fun same => fits.new_notMem later (same ▸ member)
    rw [if_pos member, if_neg notNew]
    cases base.marks v <;> rfl
  · rw [if_neg member]
    by_cases isNew : v = base.size
    · rw [if_pos isNew, if_pos isNew]
      rfl
    · rw [if_neg isNew, if_neg isNew]

omit wellFormed in
private theorem live_left_iff (v : Nat) : Digraph.isLive
    ((entered.addEdges base.size (collapsedTargets collapse base.size)).isolateAll
      collapse.members) v = true ↔
      v = base.size ∨ (base.isLive v = true ∧ v ∉ collapse.members) := by
  rw [Digraph.isLive_eq_marks, Digraph.isLive_eq_marks, holds.marks_left fits later]
  by_cases member : v ∈ collapse.members
  · rw [if_pos member]
    have notNew : v ≠ base.size := fun same => fits.new_notMem later (same ▸ member)
    cases base.marks v <;> simp [member, notNew]
  · rw [if_neg member]
    by_cases isNew : v = base.size
    · simp [isNew]
    · rw [if_neg isNew]
      simp [isNew, member]

end Entered

/-- Performing a collapse that fits. -/
theorem collapsed_collapse (wellFormed : graph.WellFormed) (fits : graph.Fits collapse) :
    Collapsed graph collapse (graph.collapse collapse).1 (graph.collapse collapse).2 := by
  have part := partAdded wellFormed.consistent collapse.part
  rw [collapse_eq]
  revert part
  generalize graph.withPart collapse.part = base
  intro part
  have later : graph.size ≤ base.size := by
    rw [part.size_eq]
    omega
  have entryBelow := Digraph.lt_size_of_isLive (fits.live _ fits.entry_mem)
  have entered := entered_redirectOutside part (by omega)
  revert entered
  generalize redirectOutside (Digraph.addVertex base collapse.node) collapse.members
    collapse.entry base.size = redirected
  intro entered
  have finalTable := entered.table_left fits later
  have finalSuccessors := entered.successors_left wellFormed fits later
  refine
    { consistent :=
        (entered.consistent_linked wellFormed fits later).isolateAll collapse.members
      size_eq := by rw [Digraph.size_isolateAll, Digraph.size_addEdges, entered.size_eq]
      new_eq := part.size_eq
      table_old := ?_
      table_new := by rw [finalTable, if_pos rfl]
      table_part := ?_
      live_iff := fun v => ?_
      successors_new := by rw [finalSuccessors, if_pos rfl]
      successors_old := fun notNew => by rw [finalSuccessors, if_neg notNew] }
  · intro v within
    rw [finalTable, if_neg (by omega), part.table_old within]
  · intro node isPart
    have sizeEq := part.size_eq
    rw [isPart, Option.isSome_some, if_pos rfl] at sizeEq
    rw [finalTable, if_neg (by omega), part.table_part node isPart]
  · rw [entered.live_left_iff fits later, part.live_eq]

namespace Collapsed

variable (wellFormed : graph.WellFormed) (fits : graph.Fits collapse)
  (collapsed : Collapsed graph collapse new changed)
include wellFormed fits collapsed

omit wellFormed fits in
theorem size_le : graph.size ≤ new := by
  have := collapsed.new_eq
  omega

omit fits in
theorem root_ne_new : root ≠ new := by
  have later := collapsed.size_le
  have := wellFormed.consistent.atLeastTwo
  simp only [root]
  omega

omit wellFormed fits in
/-- What the table holds at an index: an old node, the part or the new node. -/
theorem table_cases {i : Nat} {node : Node} (found : changed.table i = some node) :
    (i < graph.size ∧ graph.table i = some node) ∨
      (i = graph.size ∧ i < new ∧ collapse.part = some node) ∨
      (i = new ∧ node = collapse.node) := by
  have within := lt_size_of_table found
  rw [collapsed.size_eq] at within
  have newEq := collapsed.new_eq
  by_cases old : i < graph.size
  · rw [collapsed.table_old old] at found
    exact .inl ⟨old, found⟩
  · by_cases isNew : i = new
    · rw [isNew, collapsed.table_new] at found
      exact .inr (.inr ⟨isNew, (Option.some.inj found).symm⟩)
    · cases hasPart : collapse.part with
      | none =>
          rw [hasPart] at newEq
          simp only [Option.isSome_none, Bool.false_eq_true, if_false] at newEq
          omega
      | some part =>
          rw [hasPart] at newEq
          simp only [Option.isSome_some, if_true] at newEq
          have atSize : i = graph.size := by omega
          have := collapsed.table_part part hasPart
          rw [← atSize, found] at this
          exact .inr (.inl ⟨atSize, by omega, by rw [Option.some.inj this]⟩)

omit wellFormed in
theorem isJump_iff_old {j : Nat} : changed.isJump j = true ↔
    j < graph.size ∧ graph.isJump j = true := by
  constructor
  · intro isJump
    obtain ⟨target, cond, found⟩ := isJump_iff.mp isJump
    rcases collapsed.table_cases found with
      ⟨old, found⟩ | ⟨_, _, isPart⟩ | ⟨_, isNode⟩
    · exact ⟨old, isJump_iff.mpr ⟨target, cond, found⟩⟩
    · obtain ⟨nodes, shape, _⟩ := fits.part_shape _ isPart
      cases shape
    · exact absurd (by rw [← isNode]; rfl) fits.node_kind
  · rintro ⟨old, isJump⟩
    rwa [isJump_congr (collapsed.table_old old)]

omit wellFormed in
theorem new_not_isJump : changed.isJump new = false := by
  cases isJump : changed.isJump new with
  | false => rfl
  | true =>
      have := ((collapsed.isJump_iff_old fits).mp isJump).1
      have := collapsed.size_le
      omega

omit wellFormed in
/-- An edge from the new vertex comes from a member. -/
theorem successors_new_cases {t : Nat} (edge : t ∈ changed.successors new) :
    t = new ∨ (t = terminator ∧ ∃ m ∈ collapse.members, terminator ∈ graph.successors m) ∨
      (t ∉ collapse.members ∧ t ∈ collapse.out ∧
        ∃ m ∈ collapse.members, t ∈ graph.successors m) := by
  rw [collapsed.successors_new] at edge
  rcases mem_collapsedTargets.mp edge with ⟨target, isOut, rfl⟩ | ⟨rfl, returns, _⟩
  · by_cases isEntry : target = collapse.entry
    · rw [isEntry, turn_old]
      exact .inl rfl
    · rw [turn_of_ne isEntry]
      exact .inr (.inr ⟨fun member => isEntry (fits.out_entry target isOut member), isOut,
        fits.out_edge target isOut⟩)
  · obtain ⟨m, member, mReturns⟩ := fits.returns_iff.mp (.inr returns)
    exact .inr (.inl ⟨rfl, m, member, returns_iff.mp mReturns⟩)

omit wellFormed in
/-- An edge from a vertex outside the members is an old one, to the new vertex
if it led to the entry. -/
theorem successors_old_cases {u t : Nat} (notNew : u ≠ new) (edge : t ∈ changed.successors u) :
    u ∉ collapse.members ∧
      ((t = new ∧ collapse.entry ∈ graph.successors u) ∨
        (t ∉ collapse.members ∧ t ∈ graph.successors u)) := by
  rw [collapsed.successors_old notNew] at edge
  split at edge
  · cases edge
  · rename_i outside
    refine ⟨outside, ?_⟩
    obtain ⟨target, old, rfl⟩ := List.mem_map.mp edge
    by_cases isEntry : target = collapse.entry
    · rw [isEntry, turn_old]
      exact .inl ⟨rfl, isEntry ▸ old⟩
    · rw [turn_of_ne isEntry]
      exact .inr ⟨fun member => outside (fits.single member isEntry old), old⟩

/-- The root goes on leading to one region. -/
private theorem entry_after :
    ∃ e, changed.successors root = [e] ∧ changed.isLive e = true ∧ changed.isJump e = false := by
  obtain ⟨e, successors, live, notJump⟩ := wellFormed.entry
  have rootOutside := fits.root_notMem wellFormed
  have changedRoot := collapsed.successors_old (collapsed.root_ne_new wellFormed)
  rw [if_neg rootOutside, successors, List.map_singleton] at changedRoot
  refine ⟨_, changedRoot, ?_⟩
  by_cases isEntry : e = collapse.entry
  · rw [isEntry, turn_old]
    exact ⟨(collapsed.live_iff new).mpr (.inl rfl), collapsed.new_not_isJump fits⟩
  · rw [turn_of_ne isEntry]
    have outside : e ∉ collapse.members := fun member =>
      rootOutside (fits.single member isEntry (by rw [successors]; simp))
    refine ⟨(collapsed.live_iff e).mpr (.inr ⟨live, outside⟩), ?_⟩
    rw [isJump_congr (collapsed.table_old (Digraph.lt_size_of_isLive live)), notJump]

/-- The part refers to old regions, the new region to older ones. -/
private theorem nested_after : changed.table.Nested := by
  refine wellFormed.nested.grow fun found => ?_
  rcases collapsed.table_cases found with ⟨_, old⟩ | ⟨rfl, _, isPart⟩ | ⟨rfl, rfl⟩
  · exact .inl old
  · obtain ⟨nodes, rfl, nonempty, below⟩ := fits.part_shape _ isPart
    refine .inr ⟨below, fun nodes' same => ?_⟩
    cases same
    exact nonempty
  · refine .inr ⟨fun r refers => ?_, fun _ => fits.node_parts⟩
    have later := collapsed.size_le
    have newEq := collapsed.new_eq
    rcases fits.node_below r refers with below | ⟨atSize, hasPart⟩
    · omega
    · rw [hasPart] at newEq
      simp only [if_true] at newEq
      omega

/-- A jump is entered from where it was, or from the new region if it was
entered from a member. -/
private theorem enters_jump_cases {j p : Nat} (old : j < graph.size)
    (isJump : graph.isJump j = true) (enters : j ∈ changed.successors p) :
    (p = new ∧ ∃ m ∈ collapse.members, j ∈ graph.successors m) ∨
      (p ∉ collapse.members ∧ j ∈ graph.successors p) := by
  have later := collapsed.size_le
  have real := wellFormed.two_le_of_isJump isJump
  by_cases isNew : p = new
  · rw [isNew] at enters
    rcases collapsed.successors_new_cases fits enters with rfl | ⟨rfl, _⟩ | ⟨_, _, found⟩
    · omega
    · exact absurd real (by decide)
    · exact .inl ⟨isNew, found⟩
  · obtain ⟨outside, kind⟩ := collapsed.successors_old_cases fits isNew enters
    rcases kind with ⟨rfl, _⟩ | ⟨_, edge⟩
    · omega
    · exact .inr ⟨outside, edge⟩

/-- Collapsing keeps region graphs well formed. -/
theorem keeps_wellFormed : changed.WellFormed := by
  have later := collapsed.size_le
  have newLive : changed.isLive new = true := (collapsed.live_iff new).mpr (.inl rfl)
  have stays {t : Nat} (outside : t ∉ collapse.members)
      (before : t = terminator ∨ graph.isLive t = true) :
      t = terminator ∨ changed.isLive t = true :=
    before.imp_right fun live => (collapsed.live_iff t).mpr (.inr ⟨live, outside⟩)
  refine
    { consistent := collapsed.consistent
      entry := collapsed.entry_after wellFormed fits
      ends := ?_
      nested := collapsed.nested_after wellFormed fits
      jump_sink := ?_
      jump_entrant := ?_ }
  · intro u t edge
    by_cases isNew : u = new
    · subst isNew
      refine ⟨.inr newLive, ?_⟩
      rcases collapsed.successors_new_cases fits edge with
        rfl | ⟨isEnd, _⟩ | ⟨outside, _, m, _, old⟩
      · exact .inr newLive
      · exact .inl isEnd
      · exact stays outside (wellFormed.ends old).2
    · obtain ⟨uOutside, kind⟩ := collapsed.successors_old_cases fits isNew edge
      have source {t : Nat} (old : t ∈ graph.successors u) :
          u = root ∨ changed.isLive u = true :=
        (wellFormed.ends old).1.imp_right fun live =>
          (collapsed.live_iff u).mpr (.inr ⟨live, uOutside⟩)
      rcases kind with ⟨rfl, old⟩ | ⟨outside, old⟩
      · exact ⟨source old, .inr newLive⟩
      · exact ⟨source old, stays outside (wellFormed.ends old).2⟩
  · intro j isJump
    obtain ⟨old, isJump⟩ := (collapsed.isJump_iff_old fits).mp isJump
    rw [collapsed.successors_old (by omega), wellFormed.jump_sink isJump]
    split <;> rfl
  · intro j p q isJump fromP fromQ
    obtain ⟨old, isJump⟩ := (collapsed.isJump_iff_old fits).mp isJump
    -- A member and a region outside do not both enter the jump: it had one entrant.
    have apart {m u : Nat} (member : m ∈ collapse.members) (fromM : j ∈ graph.successors m)
        (outside : u ∉ collapse.members) : j ∉ graph.successors u := fun fromU =>
      outside (wellFormed.jump_entrant isJump fromM fromU ▸ member)
    rcases collapsed.enters_jump_cases wellFormed fits old isJump fromP with
      ⟨rfl, m, member, fromM⟩ | ⟨pOutside, pEdge⟩ <;>
      rcases collapsed.enters_jump_cases wellFormed fits old isJump fromQ with
        ⟨rfl, m', member', fromM'⟩ | ⟨qOutside, qEdge⟩
    · rfl
    · exact absurd qEdge (apart member fromM qOutside)
    · exact absurd pEdge (apart member' fromM' pOutside)
    · exact wellFormed.jump_entrant isJump pEdge qEdge

end Collapsed

end FlowRegions.RegionGraph
