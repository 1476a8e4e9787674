import FlowRegions.Proofs.Execution.Wiring
import FlowRegions.Proofs.Structuring.Composite

/-!
Contract: the regions of a run are wired.

What follows a region without a branch of its own is not written down in the
table; it is where its one branch starts while the region is live, and stays
that place when the region is taken into another.

Owns:
- `RegionGraph.Runnable`, that every region of a graph is wired;
- the wiring of every composite that a rule builds;
- `State.Legal.keeps_runnable`, assembled from it.
-/

namespace FlowRegions

open FlowRegions.Digraph (root terminator)

namespace Layout

variable {layout : Layout} {P Q : Point} {tasks more : List Task} {i : Nat}

/-- Tasks up to a region pass to where it is entered. -/
theorem Linked.split (linked : layout.Linked P (tasks ++ .run i :: more) Q) :
    layout.Linked P tasks (layout.entering i) ∧ layout.Linked (layout.leaving i) more Q := by
  induction tasks generalizing P with
  | nil => exact linked
  | cons task rest inductionHypothesis =>
      cases task with
      | run | resume =>
          obtain ⟨front, back⟩ := inductionHypothesis linked.2
          exact ⟨⟨linked.1, front⟩, back⟩

/-- Regions in order end where the last of them is left. -/
theorem Linked.to_last {nodes : List Nat} {last : Nat} (isLast : nodes.getLast? = some last)
    (linked : layout.Linked P (nodes.map .run) Q) :
    layout.Linked P (nodes.map .run) (layout.leaving last) ∧ (layout.leaving last).Within Q := by
  obtain ⟨front, rfl⟩ := List.getLast?_eq_some_iff.mp isLast
  rw [List.map_append, List.map_singleton] at linked ⊢
  obtain ⟨before, behind⟩ := linked.split
  exact ⟨before.append ⟨.rfl, .rfl⟩, behind⟩

theorem Linked.widen {Q' : Point} (linked : layout.Linked P tasks Q) (wider : Q.Within Q') :
    layout.Linked P tasks Q' := by
  have behind : layout.Linked Q [] Q' := wider
  simpa using linked.append behind

end Layout

namespace RegionGraph

variable {config : Config} {labels : List Nat} {targets : Nat → List Nat}
  {follow : Nat → Option Nat} {graph changed : RegionGraph} {collapse : Collapse}
  {part : Option Nat} {v new : Nat}

def layout (graph : RegionGraph) (targets : Nat → List Nat) (follow : Nat → Option Nat) :
    Layout where
  targets := targets
  table := graph.table
  first := graph.firstVertex?
  last := graph.branchingVertex?
  follow := follow

/-- Every region is wired, and a live region without a branch of its own is
followed by where its branch starts. -/
structure Runnable (targets : Nat → List Nat) (follow : Nat → Option Nat) (graph : RegionGraph) :
    Prop where
  wired : ∀ {i node}, graph.table i = some node → (graph.layout targets follow).Wired i node
  onward : ∀ {v}, graph.isLive v = true → graph.branchingVertex? v = none →
    follow v = (graph.branches v).head?.bind graph.firstVertex?

/-- What follows regions behind a change: as before for old ones, where their
branch starts for new live ones, and `part` for a new region that is not
live. -/
def followed (graph changed : RegionGraph) (follow : Nat → Option Nat) (part : Option Nat)
    (i : Nat) : Option Nat :=
  if i < graph.size then follow i
  else if changed.isLive i then (changed.branches i).head?.bind changed.firstVertex?
  else part

theorem Extends.agrees (growth : Extends graph changed) (nested : graph.table.Nested) :
    (graph.layout targets follow).Agrees
      (changed.layout targets (followed graph changed follow part)) graph.size where
  targets := rfl
  table := growth.table_old
  first := growth.firstVertex?_eq nested
  last := growth.branchingVertex?_eq nested
  follow := fun within => if_pos within

/-- The branch at the position of a target starts there. -/
theorem exists_branch_of_target {vertex position w : Nat}
    (firsts : (graph.branches v).map graph.firstVertex? = (targets vertex).map some)
    (isTarget : (targets vertex)[position]? = some w) :
    ∃ t, (graph.branches v)[position]? = some t ∧ graph.firstVertex? t = some w := by
  have isFirst : ((graph.branches v).map graph.firstVertex?)[position]? = some (some w) := by
    rw [firsts, List.getElem?_map, isTarget]
    rfl
  rwa [List.getElem?_map, Option.map_eq_some_iff] at isFirst

/-- A region whose branches all go to one place is left for it. -/
theorem Runnable.lands (runnable : Runnable targets follow graph)
    (ending : Ending config targets graph v) (live : graph.isLive v = true)
    (single : ∀ s ∈ graph.branches v, ∀ t ∈ graph.branches v, s = t)
    {pending : Option (Nat × Nat)} {w : Nat}
    (leaves : (graph.layout targets follow).leaving v pending w) :
    ∃ t ∈ graph.branches v, graph.firstVertex? t = some w := by
  cases ending with
  | @plain vertex isVertex isCond firsts =>
      obtain ⟨position, _, isTarget⟩ := (Layout.leaving_of_last isVertex).mp leaves
      obtain ⟨t, isBranch, first⟩ := exists_branch_of_target firsts isTarget
      exact ⟨t, List.mem_of_getElem? isBranch, first⟩
  | folded _ _ _ branches distinct =>
      rw [branches] at single
      exact absurd (single _ (by simp) _ (by simp)) distinct
  | closed noVertex noCond few =>
      have follows := (Layout.leaving_of_no_last noVertex).mp leaves
      change follow v = some w at follows
      rw [runnable.onward live noVertex, Option.bind_eq_some_iff] at follows
      obtain ⟨t, isHead, first⟩ := follows
      exact ⟨t, List.mem_of_head? isHead, first⟩

/-- A new region that ends as another and whose branches stand for those of the
other is left where that is left. -/
theorem Runnable.leaving_as (runnable : Runnable targets follow graph) (part : Option Nat)
    (growth : Extends graph changed) (nested : graph.table.Nested) {u : Nat}
    (live : graph.isLive u = true) (later : graph.size ≤ new) (newLive : changed.isLive new = true)
    (sameVertex : changed.branchingVertex? new = graph.branchingVertex? u)
    (redirected : Redirected graph changed u new) :
    ((changed.layout targets (followed graph changed follow part)).leaving u).Within
      ((changed.layout targets (followed graph changed follow part)).leaving new) := by
  intro pending w leaves
  rw [(growth.agrees nested).leaving_eq (Digraph.lt_size_of_isLive live)] at leaves
  cases isVertex : graph.branchingVertex? u with
  | some last =>
      have leavesBranch := (Layout.leaving_of_last isVertex).mp leaves
      exact (Layout.leaving_of_last (sameVertex.trans isVertex)).mpr leavesBranch
  | none =>
      have follows := (Layout.leaving_of_no_last isVertex).mp leaves
      change follow u = some w at follows
      refine (Layout.leaving_of_no_last (sameVertex.trans isVertex)).mpr ?_
      change followed graph changed follow part new = some w
      rw [followed, if_neg (Nat.not_lt.mpr later), if_pos newLive, redirected.start_eq,
        ← runnable.onward live isVertex]
      exact follows

/-- A graph stays runnable when its new regions are wired and its old ones keep
where their branches start. -/
theorem Runnable.grow (runnable : Runnable targets follow graph) (growth : Extends graph changed)
    (nested : graph.table.Nested)
    (wired : ∀ {i node}, graph.size ≤ i → changed.table i = some node →
      (changed.layout targets (followed graph changed follow part)).Wired i node)
    (kept : ∀ {v}, v < graph.size → changed.isLive v = true →
      graph.isLive v = true ∧ Redirected graph changed v v) :
    Runnable targets (followed graph changed follow part) changed := by
  refine ⟨fun {i node} found => ?_, fun {v} live noVertex => ?_⟩
  · by_cases old : i < graph.size
    · rw [growth.table_old old] at found
      exact (growth.agrees nested).wired nested found old (runnable.wired found)
    · exact wired (Nat.not_lt.mp old) found
  · unfold followed
    split
    · rename_i old
      obtain ⟨oldLive, redirected⟩ := kept old live
      rw [growth.branchingVertex?_eq nested old] at noVertex
      rw [redirected.start_eq]
      exact runnable.onward oldLive noVertex
    · rfl

theorem lt_size_of_firstVertex? {w : Nat} (first : graph.firstVertex? v = some w) :
    v < graph.size := by
  unfold firstVertex? at first
  cases size : graph.size with
  | zero =>
      rw [size] at first
      cases first
  | succ fuel =>
      rw [size, NodeTable.firstVertex?_succ] at first
      cases found : graph.table v with
      | none =>
          rw [found] at first
          cases first
      | some node => exact size ▸ lt_size_of_table found

/-! ## Composites -/

section New

variable (wellFormed : graph.WellFormed) (faithful : Faithful config targets graph)
  (runnable : Runnable targets follow graph) (fits : graph.Fits collapse)
  (collapsed : Collapsed graph collapse new changed)
  (sameFirst : changed.firstVertex? new = graph.firstVertex? collapse.entry)

include wellFormed fits collapsed sameFirst in
/-- A composite is entered where its entry is entered. -/
theorem Collapsed.entering_new (targets : Nat → List Nat) (follow' : Nat → Option Nat) :
    (changed.layout targets follow').entering new =
      (changed.layout targets follow').entering collapse.entry := by
  have entryWithin := Digraph.lt_size_of_isLive (fits.live _ fits.entry_mem)
  unfold Layout.entering
  change (fun _ w => changed.firstVertex? new = some w) =
    fun _ w => changed.firstVertex? collapse.entry = some w
  rw [sameFirst, collapsed.growth.firstVertex?_eq wellFormed.nested entryWithin]

include collapsed in
/-- A composite is resumed where its tested part is left. -/
theorem Collapsed.resuming_new (follow' : Nat → Option Nat) {head : Nat}
    (isTested : collapse.node.shape.tested? = some head) :
    ((changed.layout targets follow').leaving head).Within
      ((changed.layout targets follow').resuming new) :=
  fun _ _ leaves => ⟨collapse.node, head, collapsed.table_new, isTested, leaves⟩

include wellFormed fits collapsed sameFirst in
/-- A composite without a branch of its own is left for where the collapse
leads. -/
theorem Collapsed.leaving_new
    (noBranch : collapse.node.kind ≠ .leaf ∧ collapse.node.kind ≠ .seq ∧
      collapse.node.kind ≠ .tail)
    {t w : Nat} (isOut : (collapse.out.filter (· != terminator)).head? = some t)
    (first : graph.firstVertex? t = some w) (pending : Option (Nat × Nat)) :
    (changed.layout targets (followed graph changed follow part)).leaving new pending w := by
  have entryReal := wellFormed.ne_terminator_of_isLive (fits.live _ fits.entry_mem)
  have later := collapsed.size_le
  have noVertex : changed.branchingVertex? new = none := by
    rw [collapsed.branchingVertex?_at_new wellFormed fits]
    exact (NodeTable.unbranched_of_kind noBranch _ changed.branchCond?).1
  have tWithin := lt_size_of_firstVertex? first
  have firstTurn : changed.firstVertex? (turn collapse.entry new t) = some w := by
    rw [← first]
    by_cases isEntry : t = collapse.entry
    · rw [isEntry, turn_old, sameFirst]
    · rw [turn_of_ne isEntry, collapsed.growth.firstVertex?_eq wellFormed.nested tWithin]
  refine (Layout.leaving_of_no_last noVertex).mpr ?_
  change followed graph changed follow part new = some w
  rw [followed, if_neg (by omega), if_pos ((collapsed.live_iff new).mpr (.inl rfl)),
    collapsed.branches_new entryReal (collapsed.new_real wellFormed), List.head?_map, isOut]
  exact firstTurn

include wellFormed faithful runnable collapsed in
/-- A region whose branches all go to one place is left for it, behind the
collapse too. -/
theorem Collapsed.leaving_old {u : Nat} (live : graph.isLive u = true)
    (single : ∀ s ∈ graph.branches u, ∀ t ∈ graph.branches u, s = t)
    {pending : Option (Nat × Nat)} {w : Nat}
    (leaves : (changed.layout targets (followed graph changed follow part)).leaving u pending w) :
    ∃ t ∈ graph.branches u, graph.firstVertex? t = some w := by
  rw [(collapsed.growth.agrees wellFormed.nested).leaving_eq
    (Digraph.lt_size_of_isLive live)] at leaves
  exact runnable.lands (faithful.ending live) live single leaves

include wellFormed faithful runnable collapsed in
theorem Collapsed.leaving_for (part : Option Nat) {u d : Nat} (live : graph.isLive u = true)
    (only : ∀ t ∈ graph.branches u, t = d) :
    ((changed.layout targets (followed graph changed follow part)).leaving u).Within
      ((changed.layout targets (followed graph changed follow part)).entering d) := by
  intro pending w leaves
  obtain ⟨t, isBranch, first⟩ := collapsed.leaving_old wellFormed faithful runnable live
    (fun s sBranch t tBranch => (only s sBranch).trans (only t tBranch).symm) leaves
  have isPlace := only t isBranch
  subst isPlace
  change changed.firstVertex? t = some w
  rw [collapsed.growth.firstVertex?_eq wellFormed.nested (isOld_of_branch wellFormed isBranch)]
  exact first

include wellFormed faithful runnable fits collapsed sameFirst in
/-- A part whose branches all go where the collapse leads is left where the
composite is left. -/
theorem Collapsed.leaving_out (part : Option Nat)
    (noBranch : collapse.node.kind ≠ .leaf ∧ collapse.node.kind ≠ .seq ∧
      collapse.node.kind ≠ .tail)
    {u : Nat} (live : graph.isLive u = true)
    (covered : ∀ t ∈ graph.branches u, (collapse.out.filter (· != terminator)).head? = some t) :
    ((changed.layout targets (followed graph changed follow part)).leaving u).Within
      ((changed.layout targets (followed graph changed follow part)).leaving new) := by
  intro pending w leaves
  obtain ⟨t, isBranch, first⟩ := collapsed.leaving_old wellFormed faithful runnable live
    (fun s sBranch t tBranch =>
      Option.some.inj ((covered s sBranch).symm.trans (covered t tBranch))) leaves
  exact collapsed.leaving_new wellFormed fits sameFirst noBranch (covered t isBranch) first pending

include wellFormed runnable collapsed in
/-- The regions of a sequence pass through it. -/
theorem Collapsed.nodes_linked (part : Option Nat) {u : Nat} {nodes : List Nat} {cond : Option Cond}
    (isSeq : graph.table u = some ⟨.seq nodes, cond⟩) :
    (changed.layout targets (followed graph changed follow part)).Linked
      ((changed.layout targets (followed graph changed follow part)).entering u)
      (nodes.map .run)
      ((changed.layout targets (followed graph changed follow part)).leaving u) := by
  cases (collapsed.growth.agrees wellFormed.nested).wired wellFormed.nested isSeq
    (lt_size_of_table isSeq) (runnable.wired isSeq) with
  | seq opening => exact opening
  | twoWay isTested => cases isTested

include wellFormed runnable collapsed in
/-- The parts of a region in a sequence pass through it. -/
theorem Collapsed.parts_linked (part : Option Nat) (u : Nat) :
    (changed.layout targets (followed graph changed follow part)).Linked
      ((changed.layout targets (followed graph changed follow part)).entering u)
      ((graph.sequenceParts u).map .run)
      ((changed.layout targets (followed graph changed follow part)).leaving u) := by
  rcases sequenceParts_cases graph u with ⟨nodes, isSeq, parts⟩ | parts
  · rw [parts]
    exact collapsed.nodes_linked wellFormed runnable part isSeq
  · rw [parts]
    exact ⟨.rfl, .rfl⟩

include wellFormed fits collapsed in
/-- What a counting loop does ahead of its step is one region to it: one of its
body, or a wired sequence built for it. -/
theorem Collapsed.inner_linked {rest : List Nat} {inner : Nat} {P Q : Point}
    (isInner : Inner graph rest inner collapse.part) (someRest : rest ≠ [])
    (old : ∀ r ∈ rest, r < graph.size)
    (linked : (changed.layout targets
      (followed graph changed follow (rest.getLast?.bind follow))).Linked P (rest.map .run) Q) :
    (changed.layout targets
        (followed graph changed follow (rest.getLast?.bind follow))).Linked P [.run inner] Q ∧
      ∀ node, collapse.part = some node → (changed.layout targets
        (followed graph changed follow (rest.getLast?.bind follow))).Wired graph.size node := by
  have after := collapsed.keeps_wellFormed wellFormed fits
  generalize isPart : collapse.part = partNode at isInner
  cases isInner with
  | single only => exact ⟨linked, by simp⟩
  | several notSingle =>
      obtain ⟨last, isLast⟩ :=
        Option.isSome_iff_exists.mp (List.getLast?_isSome.mpr someRest)
      have lastOld := old last (List.mem_of_getLast? isLast)
      have isNew : new = graph.size + 1 := by rw [collapsed.new_eq, isPart]; rfl
      have within : graph.size < changed.size := by rw [collapsed.size_eq]; omega
      have isNode := collapsed.table_part _ isPart
      have isVertex : changed.branchingVertex? graph.size = changed.branchingVertex? last := by
        rw [after.branchingVertex?_unfold within, isNode]
        exact congrArg (Option.bind · _) isLast
      have notLive : changed.isLive graph.size = false := by
        cases isLive : changed.isLive graph.size with
        | false => rfl
        | true =>
            rcases (collapsed.live_iff graph.size).mp isLive with isNew' | ⟨oldLive, _⟩
            · omega
            · exact absurd (Digraph.lt_size_of_isLive oldLive) (Nat.lt_irrefl _)
      have follows : followed graph changed follow (rest.getLast?.bind follow) graph.size =
          followed graph changed follow (rest.getLast?.bind follow) last := by
        rw [followed, if_neg (Nat.lt_irrefl _), notLive, followed, if_pos lastOld, isLast]
        rfl
      have leaves : (changed.layout targets
          (followed graph changed follow (rest.getLast?.bind follow))).leaving graph.size =
          (changed.layout targets
            (followed graph changed follow (rest.getLast?.bind follow))).leaving last := by
        unfold Layout.leaving RegionGraph.layout
        dsimp only
        rw [isVertex, follows]
      cases rest with
      | nil => exact absurd rfl someRest
      | cons first others =>
          have starts : changed.firstVertex? graph.size = changed.firstVertex? first := by
            rw [after.firstVertex?_unfold within, isNode]
            rfl
          have enters : (changed.layout targets (followed graph changed follow
              ((first :: others).getLast?.bind follow))).entering graph.size =
              (changed.layout targets (followed graph changed follow
                ((first :: others).getLast?.bind follow))).entering first := by
            unfold Layout.entering RegionGraph.layout
            dsimp only
            rw [starts]
          obtain ⟨toLast, fromLast⟩ := linked.to_last isLast
          refine ⟨⟨enters ▸ linked.1, leaves ▸ fromLast⟩, ?_⟩
          rintro node isThis
          cases isThis
          refine .seq ?_
          rw [enters, leaves]
          exact ⟨.rfl, toLast.2⟩

end New

/-- A region that branches many ways ends in the branch of an input vertex. -/
theorem Ending.plain_of_many (ending : Ending config targets graph v)
    (many : graph.branchesManyWays config v = true) :
    ∃ vertex, graph.branchingVertex? v = some vertex ∧
      (graph.branches v).map graph.firstVertex? = (targets vertex).map some := by
  rw [branchesManyWays, Bool.or_eq_true, decide_eq_true_eq] at many
  cases ending with
  | plain isVertex isCond firsts => exact ⟨_, isVertex, firsts⟩
  | folded isVertex _ _ branches _ _ _ _ notMany =>
      rw [branches, isVertex] at many
      simp [notMany] at many
  | closed noVertex _ few =>
      rw [noVertex] at many
      simp at many
      omega

/-- The arm that a position selects is the one of its target. -/
theorem find?_arm {branches : List Nat} {follow : Option Nat} {position d : Nat}
    (isBranch : branches[position]? = some d) :
    (branches.eraseDups.map fun d =>
        ({ edges := positionsOf branches d, body := if follow = some d then none else some d } :
          Arm Nat)).find? (·.edges.contains position) =
      some { edges := positionsOf branches d
             body := if follow = some d then none else some d } := by
  have selects (other : Nat) :
      (positionsOf branches other).contains position = true ↔ other = d := by
    rw [List.contains_eq_mem, decide_eq_true_eq, mem_positionsOf, isBranch, Option.some.injEq,
      eq_comm]
  have isTarget : d ∈ branches.eraseDups :=
    List.mem_eraseDups.mpr (List.mem_of_getElem? isBranch)
  rw [List.find?_map]
  cases found : branches.eraseDups.find?
      ((·.edges.contains position) ∘ fun d =>
        ({ edges := positionsOf branches d, body := if follow = some d then none else some d } :
          Arm Nat)) with
  | none => exact absurd ((selects d).mpr rfl) (List.find?_eq_none.mp found d isTarget)
  | some other =>
      have holds := List.find?_some found
      rw [(selects other).mp holds]
      rfl

theorem mem_branches_of_exits {u d t : Nat} (exits : graph.exits u = [d]) :
    t ∈ graph.branches u ↔ t = d :=
  List.mem_eraseDups.symm.trans (mem_exits_of_eq exits)

section Rules

variable (wellFormed : graph.WellFormed) (faithful : Faithful config targets graph)
  (runnable : Runnable targets follow graph) (fits : graph.Fits collapse)
  (collapsed : Collapsed graph collapse new changed)
  (sameFirst : changed.firstVertex? new = graph.firstVertex? collapse.entry)

include wellFormed collapsed in
theorem Collapsed.before_first {d w : Nat} (first : graph.firstVertex? d = some w)
    (follow' : Nat → Option Nat) :
    (Point.before w).Within ((changed.layout targets follow').entering d) := by
  rintro pending _ rfl
  exact (collapsed.growth.firstVertex?_eq wellFormed.nested (lt_size_of_firstVertex? first)).trans
    first

include wellFormed fits collapsed sameFirst in
/-- The one place where a collapse leads is where the composite is left for. -/
theorem Collapsed.before_exit
    (noBranch : collapse.node.kind ≠ .leaf ∧ collapse.node.kind ≠ .seq ∧
      collapse.node.kind ≠ .tail)
    {u f w : Nat} (isBranch : f ∈ graph.branches u) (isOut : collapse.out = [f])
    (first : graph.firstVertex? f = some w) (part : Option Nat) :
    (Point.before w).Within
      ((changed.layout targets (followed graph changed follow part)).leaving new) := by
  rintro pending _ rfl
  refine collapsed.leaving_new wellFormed fits sameFirst noBranch ?_ first pending
  rw [isOut]
  simp [(mem_branches.mp isBranch).2]

include wellFormed faithful fits collapsed sameFirst in
/-- A composite that tests a two-way branch and is left on one of its ways is
wired, when what it opens with and what it does on the other way is linked. -/
theorem Collapsed.wired_twoWay {shape : Shape Nat} {cond : Option Cond} {head taken other : Nat}
    (isNode : collapse.node = ⟨shape, cond⟩) (isOut : collapse.out = [other])
    (isTested : shape.tested? = some head) (notSwitch : shape.kind ≠ .switch)
    (straight : Task.onward new shape false = [])
    (headLive : graph.isLive head = true) (twoWay : TwoWay config graph head taken other cond)
    (opening : (changed.layout targets (followed graph changed follow part)).Linked
      ((changed.layout targets (followed graph changed follow part)).entering collapse.entry)
      (Task.opening new shape)
      ((changed.layout targets (followed graph changed follow part)).leaving new))
    (holds : (changed.layout targets (followed graph changed follow part)).Linked
      ((changed.layout targets (followed graph changed follow part)).entering taken)
      (Task.onward new shape true)
      ((changed.layout targets (followed graph changed follow part)).leaving new)) :
    (changed.layout targets (followed graph changed follow part)).Wired new collapse.node := by
  obtain ⟨condition, yes, no, rfl, isVertex, firstYes, firstNo, leads⟩ :=
    twoWay.leads (faithful.ending headLive)
  have isOther := (twoWay.mem_branches other).mpr (.inr rfl)
  have sameVertex := collapsed.growth.branchingVertex?_eq wellFormed.nested
    (Digraph.lt_size_of_isLive headLive)
  rw [← collapsed.entering_new wellFormed fits sameFirst] at opening
  have noBranch : collapse.node.kind ≠ .leaf ∧ collapse.node.kind ≠ .seq ∧
      collapse.node.kind ≠ .tail := by
    rw [isNode]
    cases shape with
    | leaf | seq | tail => cases isTested
    | _ => simp [Node.kind, Shape.kind]
  rw [isNode]
  refine .twoWay isTested notSwitch opening (sameVertex.trans isVertex) leads
    (holds.weaken (collapsed.before_first wellFormed firstYes _)) ?_
  rw [straight]
  exact collapsed.before_exit wellFormed fits sameFirst noBranch isOther isOut firstNo _

include wellFormed runnable fits collapsed sameFirst in
/-- A region into whose branch a test was folded is wired as it was. -/
theorem Collapsed.wired_folded {head : Node} {vertex : Nat} {folded : Option Cond}
    (isEntry : collapse.entry = v) (live : graph.isLive v = true)
    (found : graph.table v = some head) (kind : head.kind = .leaf ∨ head.kind = .seq)
    (isVertex : graph.branchingVertex? v = some vertex)
    (isNode : collapse.node = { head with cond := folded }) (part : Option Nat) :
    (changed.layout targets (followed graph changed follow part)).Wired new collapse.node := by
  have growth := collapsed.growth
  have within := Digraph.lt_size_of_isLive live
  have after := collapsed.keeps_wellFormed wellFormed fits
  have sameVertex : changed.branchingVertex? new = changed.branchingVertex? v := by
    rw [collapsed.branchingVertex?_at_new wellFormed fits,
      after.branchingVertex?_unfold (Nat.lt_of_lt_of_le within growth.size_le),
      growth.table_old within, found, isNode]
    rfl
  have isLast := (growth.branchingVertex?_eq wellFormed.nested within).trans isVertex
  have enters := collapsed.entering_new wellFormed fits sameFirst targets
    (followed graph changed follow part)
  rw [isNode]
  obtain ⟨shape, cond⟩ := head
  cases shape with
  | leaf => exact .leaf
  | seq nodes =>
      refine .seq ?_
      rw [enters, isEntry]
      refine (collapsed.nodes_linked wellFormed runnable _ found).widen ?_
      intro pending w leaves
      have leavesBranch := (Layout.leaving_of_last isLast).mp leaves
      exact (Layout.leaving_of_last (sameVertex.trans isLast)).mpr leavesBranch
  | _ => rcases kind with isKind | isKind <;> cases isKind

include wellFormed faithful runnable fits collapsed sameFirst in
theorem Collapsed.wired_sequence {next : Nat} (isEntry : collapse.entry = v)
    (live : graph.isLive v = true) (exits : graph.exits v = [next])
    (isNode : collapse.node =
      { shape := .seq (graph.sequenceParts v ++ graph.sequenceParts next) })
    (isOut : collapse.out = graph.successors next) :
    (changed.layout targets (followed graph changed follow none)).Wired new collapse.node := by
  have nextLive := wellFormed.isLive_of_mem_branches ((mem_branches_of_exits exits).mpr rfl)
  have toNext := collapsed.leaving_for wellFormed faithful runnable none live
    fun _ isBranch => (mem_branches_of_exits exits).mp isBranch
  have leavesNext := runnable.leaving_as none collapsed.growth wellFormed.nested nextLive
    collapsed.size_le ((collapsed.live_iff new).mpr (.inl rfl))
    (collapsed.branchingVertex?_sequence wellFormed fits isNode
      (Digraph.lt_size_of_isLive nextLive))
    (collapsed.redirected_new wellFormed fits isOut sameFirst)
  have front := collapsed.parts_linked wellFormed runnable none v
  have back := collapsed.parts_linked wellFormed runnable none next
  have enters := collapsed.entering_new wellFormed fits sameFirst targets
    (followed graph changed follow none)
  rw [isNode]
  refine .seq ?_
  rw [enters, isEntry, List.map_append]
  exact front.append ((back.weaken toNext).widen leavesNext)

include wellFormed faithful runnable fits collapsed sameFirst in
theorem Collapsed.wired_ifElse {thenArm elseArm : Nat} (isEntry : collapse.entry = v)
    (live : graph.isLive v = true) (branches : graph.branches v = [thenArm, elseArm])
    (isNode : collapse.node =
      { shape := .ifElse v thenArm elseArm, cond := graph.branchCond? v })
    (meets : ∀ u ∈ [thenArm, elseArm], ∀ t ∈ graph.exits u, collapse.out = [t]) :
    (changed.layout targets (followed graph changed follow part)).Wired new collapse.node := by
  obtain ⟨condition, yes, no, isCond, isVertex, firstYes, firstNo, leads⟩ :=
    (faithful.ending live).leads branches
  have noBranch : collapse.node.kind ≠ .leaf ∧ collapse.node.kind ≠ .seq ∧
      collapse.node.kind ≠ .tail := by simp [isNode, Node.kind, Shape.kind]
  have covered {u : Nat} (isArm : u ∈ [thenArm, elseArm]) :=
    collapsed.leaving_out wellFormed faithful runnable fits sameFirst part noBranch
      (wellFormed.isLive_of_mem_branches (v := v) (by rw [branches]; exact isArm))
      fun t isBranch => by
        rw [meets u isArm t (List.mem_eraseDups.mpr isBranch)]
        simp [(mem_branches.mp isBranch).2]
  have enters := collapsed.entering_new wellFormed fits sameFirst targets
    (followed graph changed follow part)
  have sameVertex := collapsed.growth.branchingVertex?_eq wellFormed.nested
    (Digraph.lt_size_of_isLive live)
  have isTested : collapse.node.shape.tested? = some v := by
    rw [isNode]
    rfl
  rw [isNode, isCond]
  refine .twoWay rfl (by simp [Shape.kind])
    ⟨?_, collapsed.resuming_new _ isTested, .rfl⟩ (sameVertex.trans isVertex) leads
    ⟨collapsed.before_first wellFormed firstYes _, covered (by simp)⟩
    ⟨collapsed.before_first wellFormed firstNo _, covered (by simp)⟩
  rw [enters, isEntry]
  exact .rfl

include wellFormed faithful runnable fits collapsed sameFirst in
/-- A counting loop is wired, with the sequence that is built for what it does
ahead of its step. -/
theorem Collapsed.wired_forLoop {body after init step inner : Nat} {nodes : List Nat}
    {cond : Option Cond} (loop : TopTested config graph v body after cond)
    (counting : Counting config graph v body after init step nodes)
    (isInner : Inner graph nodes.dropLast inner collapse.part) (live : graph.isLive v = true)
    (isEntry : collapse.entry = init)
    (isNode : collapse.node = { shape := .forLoop init v inner step, cond })
    (isOut : collapse.out = [after]) : ∃ part,
    (changed.layout targets (followed graph changed follow part)).Wired new collapse.node ∧
      ∀ node, collapse.part = some node →
        (changed.layout targets (followed graph changed follow part)).Wired graph.size node := by
  have isBody := (loop.twoWay.mem_branches body).mpr (.inl rfl)
  have bodyLive := wellFormed.isLive_of_mem_branches isBody
  have initLive := counting.init_isLive wellFormed
  obtain ⟨bodyCond, bodyNode⟩ := counting.body_parts
  -- The body of a counting loop ahead of its step.
  obtain ⟨rest, isNodes⟩ := List.getLast?_eq_some_iff.mp counting.step_last
  have isRest : nodes.dropLast = rest := by rw [isNodes, List.dropLast_concat]
  rw [isRest] at isInner
  refine ⟨rest.getLast?.bind follow, ?_⟩
  have opening := collapsed.nodes_linked wellFormed runnable
    (rest.getLast?.bind follow) bodyNode
  rw [isNodes, List.map_append, List.map_singleton] at opening
  obtain ⟨ahead, fromStep⟩ := opening.split
  have someRest : rest ≠ [] := isRest ▸ counting.dropLast_ne_nil
  have old : ∀ r ∈ rest, r < graph.size := fun r isPart =>
    counting.nodes_lt_size wellFormed (by simp [isNodes, isPart])
  obtain ⟨⟨toInner, fromInner⟩, partWired⟩ :=
    collapsed.inner_linked wellFormed fits isInner someRest old ahead
  have toHead := collapsed.leaving_for wellFormed faithful runnable
    (rest.getLast?.bind follow) bodyLive
    fun _ isBranch => (mem_branches_of_exits loop.body_exits).mp isBranch
  have fromInit := collapsed.leaving_for wellFormed faithful runnable
    (rest.getLast?.bind follow) initLive (d := v) fun _ isBranch =>
      counting.mem_successors_init.mp (mem_branches.mp isBranch).1
  have isTested : collapse.node.shape.tested? = some v := by
    rw [isNode]
    rfl
  refine ⟨collapsed.wired_twoWay wellFormed faithful fits sameFirst isNode isOut rfl
    (by simp [Shape.kind]) rfl live loop.twoWay
    ⟨?_, fromInit, collapsed.resuming_new _ isTested, .rfl⟩
    ⟨toInner, fromInner, fun _ _ leaves => toHead (fromStep leaves),
      collapsed.resuming_new _ isTested, .rfl⟩, partWired⟩
  rw [isEntry]
  exact .rfl

include wellFormed faithful runnable fits collapsed sameFirst in
/-- A switch is wired: an arm returns to where the arms meet, and a target that
has no arm is that place. -/
theorem Collapsed.wired_switch {meeting : Option Nat} {arms : List Nat}
    (switching : Switching config graph v meeting arms) (live : graph.isLive v = true)
    (isEntry : collapse.entry = v)
    (isNode : collapse.node =
      { shape := .switch v ((graph.branches v).eraseDups.map fun d =>
          { edges := positionsOf (graph.branches v) d
            body := if meeting = some d then none else some d : Arm Nat }) })
    (isOut : collapse.out = meeting.toList) :
    (changed.layout targets (followed graph changed follow part)).Wired new collapse.node := by
  obtain ⟨vertex, isVertex, firsts⟩ := (faithful.ending live).plain_of_many switching.many
  have noBranch : collapse.node.kind ≠ .leaf ∧ collapse.node.kind ≠ .seq ∧
      collapse.node.kind ≠ .tail := by simp [isNode, Node.kind, Shape.kind]
  have isTested : collapse.node.shape.tested? = some v := by
    rw [isNode]
    rfl
  have sameVertex := collapsed.growth.branchingVertex?_eq wellFormed.nested
    (Digraph.lt_size_of_isLive live)
  have enters := collapsed.entering_new wellFormed fits sameFirst targets
    (followed graph changed follow part)
  have returning {d : Nat} (isExit : d ∈ graph.exits v) (notMeeting : meeting ≠ some d) :=
    collapsed.leaving_out wellFormed faithful runnable fits sameFirst part noBranch
      (wellFormed.isLive_of_mem_exits isExit) fun t isBranch => by
        have isArm : d ∈ arms := by
          rw [switching.arms_eq, List.mem_filter]
          simpa using ⟨isExit, notMeeting⟩
        have meets := (switching.arm_exits d isArm t (List.mem_eraseDups.mpr isBranch)).2.2
        rw [isOut, meets]
        simp [(mem_branches.mp isBranch).2]
  rw [isNode]
  refine .switch ⟨?_, collapsed.resuming_new _ isTested, .rfl⟩ (sameVertex.trans isVertex) ?_ ?_
  · rw [enters, isEntry]
    exact .rfl
  · intro arm isArm
    obtain ⟨d, isExit, rfl⟩ := List.mem_map.mp isArm
    unfold Task.ofArm
    dsimp only
    split
    · exact fun _ _ impossible => impossible.elim
    · rename_i notMeeting
      exact ⟨fun _ _ impossible => impossible.elim, returning isExit notMeeting⟩
  · intro position w isTarget
    obtain ⟨d, isBranch, first⟩ := exists_branch_of_target firsts isTarget
    have member := List.mem_of_getElem? isBranch
    refine ⟨_, find?_arm isBranch, ?_⟩
    unfold Task.ofArm
    dsimp only
    split
    · rename_i meets
      rintro pending _ rfl
      refine collapsed.leaving_new wellFormed fits sameFirst noBranch ?_ first pending
      rw [isOut, meets]
      simp [(mem_branches.mp member).2]
    · rename_i notMeeting
      exact ⟨collapsed.before_first wellFormed first _,
        returning (List.mem_eraseDups.mpr member) notMeeting⟩

include wellFormed faithful runnable collapsed in
/-- The composite that a rule builds is wired, and so is a part that is built
with it. -/
theorem Matches.wired (live : graph.isLive v = true)
    (found : Matches config labels graph v collapse) : ∃ part,
    (changed.layout targets (followed graph changed follow part)).Wired new collapse.node ∧
      ∀ node, collapse.part = some node →
        (changed.layout targets (followed graph changed follow part)).Wired graph.size node := by
  have fits := found.fits wellFormed live
  have sameFirst := found.firstVertex?_new wellFormed live collapsed
  cases found with
  | forever again only =>
      have enters := collapsed.entering_new wellFormed fits sameFirst targets
        (followed graph changed follow none)
      refine ⟨none, .forever ⟨?_, collapsed.resuming_new _ rfl, .rfl⟩ ?_, by simp⟩
      · rw [enters]
        exact .rfl
      · rw [enters]
        exact collapsed.leaving_for wellFormed faithful runnable _ live only
  | selfLoop twoWay leaves =>
      exact ⟨none, collapsed.wired_twoWay wellFormed faithful fits sameFirst rfl rfl rfl
        (by simp [Shape.kind]) rfl live twoWay
        ⟨.rfl, collapsed.resuming_new _ rfl, .rfl⟩
        ⟨.rfl, collapsed.resuming_new _ rfl, .rfl⟩, by simp⟩
  | @whileLoop body _ _ loop =>
      have isBody := (loop.twoWay.mem_branches body).mpr (.inl rfl)
      have toHead := collapsed.leaving_for wellFormed faithful runnable none
        (wellFormed.isLive_of_mem_branches isBody)
        fun _ isBranch => (mem_branches_of_exits loop.body_exits).mp isBranch
      exact ⟨none, collapsed.wired_twoWay wellFormed faithful fits sameFirst rfl rfl rfl
        (by simp [Shape.kind]) rfl live loop.twoWay
        ⟨.rfl, collapsed.resuming_new _ rfl, .rfl⟩
        ⟨.rfl, toHead, collapsed.resuming_new _ rfl, .rfl⟩, by simp⟩
  | @doWhile latch _ _ exits proper alone twoWay leaves =>
      have isLatch : latch ∈ graph.branches v := (mem_branches_of_exits exits).mpr rfl
      have toLatch := collapsed.leaving_for wellFormed faithful runnable none live
        fun _ isBranch => (mem_branches_of_exits exits).mp isBranch
      exact ⟨none, collapsed.wired_twoWay wellFormed faithful fits sameFirst rfl rfl rfl
        (by simp [Shape.kind]) rfl
        (wellFormed.isLive_of_mem_branches isLatch) twoWay
        ⟨.rfl, toLatch, collapsed.resuming_new _ rfl, .rfl⟩
        ⟨.rfl, toLatch, collapsed.resuming_new _ rfl, .rfl⟩, by simp⟩
  | @ifThen arm after _ twoWay proper alone exits =>
      have isArm := (twoWay.mem_branches arm).mpr (.inl rfl)
      have isFollow := (twoWay.mem_branches after).mpr (.inr rfl)
      have returning := collapsed.leaving_out wellFormed faithful runnable fits sameFirst none
        (by simp [Node.kind, Shape.kind]) (wellFormed.isLive_of_mem_branches isArm)
        fun t isBranch => by
          rcases exits with noExit | oneExit
          · have isExit : t ∈ graph.exits arm := List.mem_eraseDups.mpr isBranch
            rw [noExit] at isExit
            cases isExit
          · rw [(mem_branches_of_exits oneExit).mp isBranch]
            simp [(mem_branches.mp isFollow).2]
      exact ⟨none, collapsed.wired_twoWay wellFormed faithful fits sameFirst rfl rfl rfl
        (by simp [Shape.kind]) rfl live twoWay
        ⟨.rfl, collapsed.resuming_new _ rfl, .rfl⟩ ⟨.rfl, returning⟩, by simp⟩
  | @ifElse thenArm elseArm meeting notMany branches proper _ _ meeting_eq atMostOne _ =>
      refine ⟨none, collapsed.wired_ifElse wellFormed faithful runnable fits sameFirst rfl live
        branches rfl fun u isArm t isExit => ?_, by simp⟩
      have isMeeting : t ∈ meeting := by
        rw [meeting_eq, List.mem_eraseDups, List.mem_append]
        rcases List.mem_pair.mp isArm with rfl | rfl
        · exact .inl isExit
        · exact .inr isExit
      rcases meeting with _ | ⟨only, _ | ⟨second, rest⟩⟩
      · cases isMeeting
      · rw [List.mem_singleton.mp isMeeting]
      · simp at atMostOne
  | compound foldable branch =>
      obtain ⟨_, _, _, _, _, isVertex⟩ := foldable.leads wellFormed faithful live branch
      exact ⟨none, collapsed.wired_folded wellFormed runnable fits sameFirst rfl live
        foldable.head_node foldable.head_kind isVertex rfl none, by simp⟩
  | sequence exits proper alone ends =>
      exact ⟨none, collapsed.wired_sequence wellFormed faithful runnable fits sameFirst rfl live
        exits rfl rfl, by simp⟩
  | forLoop loop counting isInner =>
      exact collapsed.wired_forLoop wellFormed faithful runnable fits sameFirst loop counting
        isInner live rfl rfl rfl
  | switch switching returnsIff =>
      exact ⟨none, collapsed.wired_switch wellFormed faithful runnable fits sameFirst switching
        live rfl rfl rfl, by simp⟩

end Rules

/-! ## The effect of each step -/

section Effects

variable (wellFormed : graph.WellFormed) (runnable : Runnable targets follow graph)
include wellFormed runnable

theorem Pruned.keeps_runnable {regions : List Nat} (pruned : Pruned graph regions changed)
    (closed : ∀ {v}, changed.isLive v = true → ∀ t ∈ graph.successors v, t ∉ regions) :
    Runnable targets (followed graph changed follow none) changed := by
  refine runnable.grow pruned.growth wellFormed.nested ?_ ?_
  · intro i node later found
    have within := lt_size_of_table found
    rw [pruned.size_eq] at within
    omega
  · intro v _ live
    obtain ⟨oldLive, kept⟩ := (pruned.live_iff v).mp live
    exact ⟨oldLive, pruned.redirected_old wellFormed kept (closed live)⟩

theorem Collapsed.keeps_runnable (faithful : Faithful config targets graph)
    (live : graph.isLive v = true) (found : Matches config labels graph v collapse)
    (collapsed : Collapsed graph collapse new changed) :
    ∃ part, Runnable targets (followed graph changed follow part) changed := by
  have fits := found.fits wellFormed live
  have sameFirst := found.firstVertex?_new wellFormed live collapsed
  obtain ⟨part, newWired, partWired⟩ := found.wired wellFormed faithful runnable collapsed live
  refine ⟨part, runnable.grow collapsed.growth wellFormed.nested ?_ ?_⟩
  · intro i node later isNode
    rcases collapsed.table_cases isNode with
      ⟨old, _⟩ | ⟨rfl, _, isPart⟩ | ⟨rfl, rfl⟩
    · omega
    · exact partWired _ isPart
    · exact newWired
  · intro u old uLive
    rcases (collapsed.live_iff u).mp uLive with rfl | ⟨oldLive, outside⟩
    · have := collapsed.size_le
      omega
    · exact ⟨oldLive, collapsed.redirected_old wellFormed fits sameFirst old outside⟩

theorem Copied.keeps_runnable {outside : List Nat} (after : changed.WellFormed)
    (live : graph.isLive v = true) (copied : Copied graph v outside changed) :
    Runnable targets (followed graph changed follow none) changed := by
  have within := Digraph.lt_size_of_isLive live
  have copyLive := (copied.live_iff graph.size).mpr (.inr ⟨Nat.le_refl _, copied.size_lt⟩)
  refine runnable.grow copied.growth wellFormed.nested ?_ ?_
  · intro i node later isNode
    rcases Nat.eq_or_lt_of_le later with rfl | fresh
    · rw [copied.table_copy] at isNode
      cases isNode
      refine .tail ⟨fun pending w first => ?_, ?_⟩
      · exact (copied.growth.firstVertex?_eq wellFormed.nested within).trans
          ((copied.firstVertex?_copy wellFormed after within).symm.trans first)
      · exact runnable.leaving_as none copied.growth wellFormed.nested live (Nat.le_refl _) copyLive
          (copied.branchingVertex?_copy wellFormed after within)
          (copied.redirected_copy wellFormed after)
    · obtain ⟨_, _, _, _, isCopy⟩ := copied.table_fresh fresh (lt_size_of_table isNode)
      rw [isCopy] at isNode
      cases isNode
      exact .jump
  · intro u old uLive
    rcases (copied.live_iff u).mp uLive with oldLive | ⟨beyond, _⟩
    · exact ⟨oldLive, copied.redirected_old wellFormed after live old⟩
    · omega

theorem Severed.keeps_runnable {source target : Nat} (after : changed.WellFormed)
    (targetLive : graph.isLive target = true)
    (severed : Severed graph source target changed) :
    Runnable targets (followed graph changed follow none) changed := by
  refine runnable.grow severed.growth wellFormed.nested ?_ ?_
  · intro i node later isNode
    rcases severed.table_cases isNode with ⟨old, _⟩ | ⟨_, rfl⟩
    · omega
    · exact .jump
  · intro u old uLive
    rcases (severed.live_iff u).mp uLive with rfl | oldLive
    · omega
    · exact ⟨oldLive, severed.redirected_old wellFormed after targetLive⟩

end Effects

end RegionGraph

/-- A legal step keeps region graphs runnable. -/
theorem State.Legal.keeps_runnable {config : Config} {targets : Nat → List Nat}
    {follow : Nat → Option Nat} {state : State} {action : Action}
    (wellFormed : state.graph.WellFormed)
    (faithful : RegionGraph.Faithful config targets state.graph)
    (runnable : RegionGraph.Runnable targets follow state.graph)
    (legal : Legal config state action) :
    ∃ follow', RegionGraph.Runnable targets follow' (state.perform action).1.graph := by
  have after := legal.keeps_wellFormed wellFormed
  cases legal with
  | @prune regions someStray strayIff =>
      have pruned := RegionGraph.pruned_isolateAll wellFormed.consistent regions
      refine ⟨_, pruned.keeps_runnable wellFormed runnable fun {v} live t edge stray => ?_⟩
      obtain ⟨oldLive, kept⟩ := (pruned.live_iff v).mp live
      have reached : state.graph.Reaches .forward root v := by
        by_contra unreached
        exact kept ((strayIff v).mpr ⟨oldLive, unreached⟩)
      exact ((strayIff t).mp stray).2 (reached.edge edge)
  | collapse all live found =>
      have collapsed :=
        RegionGraph.collapsed_collapse wellFormed (found.fits wellFormed live)
      obtain ⟨part, stays⟩ := collapsed.keeps_runnable wellFormed runnable faithful live found
      exact ⟨_, stays⟩
  | duplicate all few live entering =>
      have copied := RegionGraph.copied_giveCopy wellFormed.consistent
        (Digraph.lt_size_of_isLive live) entering
      exact ⟨_, copied.keeps_runnable wellFormed runnable after live⟩
  | @cut source target other reason all live edge =>
      have severed := RegionGraph.severed_redirect wellFormed.consistent source target
      exact ⟨_, severed.keeps_runnable wellFormed runnable after
        (wellFormed.isLive_of_mem_exits edge)⟩

end FlowRegions
