import FlowRegions.Proofs.Structuring.Steps

/-!
Contract: the branches of a region mean what the branches of the input mean.

A region that ends in the branch of an input vertex has the targets of that
vertex, position by position, unless tests were folded into the branch; then it
has two branches, and testing the folded condition along the input leads to
where they start.

Owns:
- `Cond.Leads`, where short-circuit testing of a condition leads in the input;
- `RegionGraph.Ending`, how a region ends, and `RegionGraph.Faithful`, that
  every live region starts somewhere and ends so;
- that every legal step keeps region graphs faithful.
-/

namespace FlowRegions

open FlowRegions.Digraph (root terminator)

namespace Cond

def first : Cond → Nat
  | test vertex => vertex
  | not operand => operand.first
  | and left _ => left.first
  | or left _ => left.first

theorem first_negate (condition : Cond) : condition.negate.first = condition.first := by
  cases condition <;> rfl

theorem first_mem_vertices (condition : Cond) : condition.first ∈ condition.vertices := by
  induction condition with
  | test vertex => exact List.mem_singleton_self vertex
  | not operand inductionHypothesis => exact inductionHypothesis
  | and left right leftHypothesis _ | or left right leftHypothesis _ =>
      exact List.mem_append_left _ leftHypothesis

/-- Testing a condition from its first vertex on, left to right and no further
than needed, leads to `whenTrue` or `whenFalse`. -/
inductive Leads (targets : Nat → List Nat) : Cond → Nat → Nat → Prop where
  | test {vertex whenTrue whenFalse : Nat} (branch : targets vertex = [whenTrue, whenFalse]) :
      Leads targets (test vertex) whenTrue whenFalse
  | not {operand : Cond} {whenTrue whenFalse : Nat}
      (inner : Leads targets operand whenFalse whenTrue) :
      Leads targets (not operand) whenTrue whenFalse
  | and {left right : Cond} {whenTrue whenFalse : Nat}
      (before : Leads targets left right.first whenFalse)
      (behind : Leads targets right whenTrue whenFalse) :
      Leads targets (and left right) whenTrue whenFalse
  | or {left right : Cond} {whenTrue whenFalse : Nat}
      (before : Leads targets left whenTrue right.first)
      (behind : Leads targets right whenTrue whenFalse) :
      Leads targets (or left right) whenTrue whenFalse

theorem Leads.negate {targets : Nat → List Nat} {condition : Cond} {whenTrue whenFalse : Nat}
    (leads : Leads targets condition whenTrue whenFalse) :
    Leads targets condition.negate whenFalse whenTrue := by
  cases leads with
  | test branch => exact .not (.test branch)
  | not inner => exact inner
  | and before behind => exact .not (.and before behind)
  | or before behind => exact .not (.or before behind)

end Cond

namespace RegionGraph

variable {config : Config} {labels : List Nat} {targets : Nat → List Nat}
  {graph changed : RegionGraph} {collapse : Collapse} {v v' new : Nat}

/-- How a region ends: in the branch of an input vertex, in such a branch with
other tests folded into it, or in no branch of its own. -/
inductive Ending (config : Config) (targets : Nat → List Nat) (graph : RegionGraph) (v : Nat) :
    Prop where
  | plain {vertex : Nat} (isVertex : graph.branchingVertex? v = some vertex)
      (isCond : graph.branchCond? v = some (.test vertex))
      (firsts : (graph.branches v).map graph.firstVertex? = (targets vertex).map some)
  | folded {vertex a b whenTrue whenFalse : Nat} {cond : Cond}
      (isVertex : graph.branchingVertex? v = some vertex)
      (isCond : graph.branchCond? v = some cond) (isFirst : cond.first = vertex)
      (branches : graph.branches v = [a, b]) (distinct : a ≠ b)
      (first_a : graph.firstVertex? a = some whenTrue)
      (first_b : graph.firstVertex? b = some whenFalse)
      (leads : cond.Leads targets whenTrue whenFalse) (notMany : config.multiway vertex = false)
  | closed (noVertex : graph.branchingVertex? v = none) (noCond : graph.branchCond? v = none)
      (few : (graph.branches v).length ≤ 1)

/-- Every live region starts at an input vertex and ends as the input does. -/
structure Faithful (config : Config) (targets : Nat → List Nat) (graph : RegionGraph) : Prop where
  starts : ∀ {v}, graph.isLive v = true → ∃ w, graph.firstVertex? v = some w
  ending : ∀ {v}, graph.isLive v = true → Ending config targets graph v

/-! ## Two-way branches -/

/-- A region that branches two ways tests a condition that leads to where the
two branches start. -/
theorem Ending.leads {a b : Nat} (ending : Ending config targets graph v)
    (branches : graph.branches v = [a, b]) :
    ∃ cond whenTrue whenFalse, graph.branchCond? v = some cond ∧
      graph.branchingVertex? v = some cond.first ∧ graph.firstVertex? a = some whenTrue ∧
      graph.firstVertex? b = some whenFalse ∧ cond.Leads targets whenTrue whenFalse := by
  cases ending with
  | @plain vertex isVertex isCond firsts =>
      rw [branches] at firsts
      match isTargets : targets vertex with
      | [whenTrue, whenFalse] =>
          rw [isTargets] at firsts
          simp only [List.map_cons, List.map_nil, List.cons.injEq, and_true] at firsts
          exact ⟨_, _, _, isCond, isVertex, firsts.1, firsts.2, .test isTargets⟩
      | [] | [_] | _ :: _ :: _ :: _ =>
          rw [isTargets] at firsts
          simp at firsts
  | folded isVertex isCond isFirst isBranches distinct first_a first_b leads notMany =>
      rw [branches] at isBranches
      cases isBranches
      exact ⟨_, _, _, isCond, isFirst ▸ isVertex, first_a, first_b, leads⟩
  | closed noVertex noCond few =>
      rw [branches] at few
      simp at few

theorem TwoWay.leads {taken other : Nat} {cond : Option Cond}
    (twoWay : TwoWay config graph v taken other cond) (ending : Ending config targets graph v) :
    ∃ condition whenTaken whenOther, cond = some condition ∧
      graph.branchingVertex? v = some condition.first ∧
      graph.firstVertex? taken = some whenTaken ∧ graph.firstVertex? other = some whenOther ∧
      condition.Leads targets whenTaken whenOther := by
  rcases twoWay.order with ⟨branches, rfl⟩ | ⟨branches, rfl⟩
  · obtain ⟨condition, whenTrue, whenFalse, isCond, facts⟩ := ending.leads branches
    exact ⟨condition, whenTrue, whenFalse, isCond, facts⟩
  · obtain ⟨condition, whenTrue, whenFalse, isCond, isFirst, first_a, first_b, leads⟩ :=
      ending.leads branches
    refine ⟨condition.negate, whenFalse, whenTrue, by rw [isCond]; rfl, ?_, first_b, first_a,
      leads.negate⟩
    rw [isFirst, Cond.first_negate]

/-! ## Regions that a change leaves alone -/

/-- The branches of a region stand for those of another before the change: they
start at the same vertices. -/
structure Redirected (graph changed : RegionGraph) (v v' : Nat) : Prop where
  starts : List.Forall₂ (fun t t' => changed.firstVertex? t' = graph.firstVertex? t)
    (graph.branches v) (changed.branches v')
  distinct : ∀ {a b a' b'}, graph.branches v = [a, b] → changed.branches v' = [a', b'] →
    a ≠ b → a' ≠ b'

namespace Redirected

/-- Branches that a function turns. -/
theorem of_map {f : Nat → Nat} (branches : changed.branches v' = (graph.branches v).map f)
    (sameFirst : ∀ t ∈ graph.branches v, changed.firstVertex? (f t) = graph.firstVertex? t)
    (injective : ∀ a ∈ graph.branches v, ∀ b ∈ graph.branches v, f a = f b → a = b) :
    Redirected graph changed v v' where
  starts := by
    rw [branches, List.forall₂_map_right_iff, List.forall₂_same]
    exact sameFirst
  distinct := by
    intro a b a' b' before after differ same
    rw [before, after] at branches
    simp only [List.map_cons, List.map_nil, List.cons.injEq, and_true] at branches
    rw [branches.1, branches.2] at same
    exact differ (injective a (by simp [before]) b (by simp [before]) same)

theorem firsts_eq (redirected : Redirected graph changed v v') :
    (changed.branches v').map changed.firstVertex? =
      (graph.branches v).map graph.firstVertex? := by
  have starts := redirected.starts
  generalize changed.branches v' = here at starts
  generalize graph.branches v = there at starts
  induction starts with
  | nil => rfl
  | cons same _ inductionHypothesis =>
      rw [List.map_cons, List.map_cons, same, inductionHypothesis]

/-- The first branch starts at the same vertex. -/
theorem start_eq (redirected : Redirected graph changed v v') :
    (changed.branches v').head?.bind changed.firstVertex? =
      (graph.branches v).head?.bind graph.firstVertex? := by
  have firsts := congrArg (fun firsts => firsts.head?.bind id) redirected.firsts_eq
  simpa [List.head?_map, Option.bind_map] using firsts

end Redirected

/-- How a region ends is read off its last vertex, its condition and where its
branches start. -/
theorem Ending.transfer (ending : Ending config targets graph v)
    (sameVertex : changed.branchingVertex? v' = graph.branchingVertex? v)
    (sameCond : changed.branchCond? v' = graph.branchCond? v)
    (redirected : Redirected graph changed v v') : Ending config targets changed v' := by
  have starts := redirected.starts
  cases ending with
  | plain isVertex isCond firsts =>
      exact .plain (sameVertex.trans isVertex) (sameCond.trans isCond)
        (redirected.firsts_eq.trans firsts)
  | @folded vertex a b _ _ cond isVertex isCond isFirst isBranches differ first_a first_b leads
      notMany =>
      obtain ⟨a', b', isBranches'⟩ : ∃ a' b', changed.branches v' = [a', b'] := by
        have length := starts.length_eq
        rw [isBranches] at length
        exact List.length_eq_two.mp length.symm
      rw [isBranches, isBranches'] at starts
      simp only [List.forall₂_cons, List.forall₂_nil_left_iff, and_true] at starts
      exact .folded (sameVertex.trans isVertex) (sameCond.trans isCond) isFirst isBranches'
        (redirected.distinct isBranches isBranches' differ) (starts.1.trans first_a)
        (starts.2.trans first_b) leads notMany
  | closed noVertex noCond few =>
      exact .closed (sameVertex.trans noVertex) (sameCond.trans noCond)
        (starts.length_eq ▸ few)

/-! ## Tables that grow -/

/-- The table of one graph begins with that of another. -/
structure Extends (graph changed : RegionGraph) : Prop where
  size_le : graph.size ≤ changed.size
  table_old : ∀ {v}, v < graph.size → changed.table v = graph.table v

namespace Extends

variable (growth : Extends graph changed) (nested : graph.table.Nested) (within : v < graph.size)
include growth nested within

theorem firstVertex?_eq : changed.firstVertex? v = graph.firstVertex? v :=
  NodeTable.walk_congr _ NodeTable.firstVertex?_succ nested
    (fun j le => growth.table_old (by omega)) within (Nat.lt_of_lt_of_le within growth.size_le)

theorem branchingVertex?_eq : changed.branchingVertex? v = graph.branchingVertex? v :=
  NodeTable.walk_congr _ NodeTable.branchingVertex?_succ nested
    (fun j le => growth.table_old (by omega)) within (Nat.lt_of_lt_of_le within growth.size_le)

theorem branchCond?_eq : changed.branchCond? v = graph.branchCond? v :=
  NodeTable.walk_congr _ NodeTable.branchCond?_succ nested
    (fun j le => growth.table_old (by omega)) within (Nat.lt_of_lt_of_le within growth.size_le)

theorem ending (redirected : Redirected graph changed v v)
    (ending : Ending config targets graph v) : Ending config targets changed v :=
  ending.transfer (growth.branchingVertex?_eq nested within) (growth.branchCond?_eq nested within)
    redirected

end Extends

theorem Collapsed.growth (collapsed : Collapsed graph collapse new changed) :
    Extends graph changed :=
  ⟨by have := collapsed.size_le; rw [collapsed.size_eq]; omega, collapsed.table_old⟩

theorem Severed.growth {source target : Nat} (severed : Severed graph source target changed) :
    Extends graph changed :=
  ⟨by rw [severed.size_eq]; omega, severed.table_old⟩

theorem Copied.growth {outside : List Nat} (copied : Copied graph v outside changed) :
    Extends graph changed :=
  ⟨Nat.le_of_lt copied.size_lt, copied.table_old⟩

theorem Pruned.growth {regions : List Nat} (pruned : Pruned graph regions changed) :
    Extends graph changed :=
  ⟨Nat.le_of_eq pruned.size_eq.symm, fun _ => pruned.table_eq _⟩

/-! ## Branches behind each effect -/

/-- Turning a target keeps the edges to the terminator. -/
theorem filter_map_turn {old new : Nat} (oldReal : old ≠ terminator) (newReal : new ≠ terminator)
    (successors : List Nat) :
    (successors.map (turn old new)).filter (· != terminator) =
      (successors.filter (· != terminator)).map (turn old new) := by
  rw [List.filter_map]
  congr 1
  refine List.filter_congr fun t _ => ?_
  rw [Function.comp_apply]
  by_cases isOld : t = old
  · rw [isOld, turn_old, bne_iff_ne.mpr newReal, bne_iff_ne.mpr oldReal]
  · rw [turn_of_ne isOld]

/-- Turning a target to a vertex that was no target tells targets apart. -/
theorem turn_injective {old new a b : Nat} (aOld : a ≠ new) (bOld : b ≠ new)
    (same : turn old new a = turn old new b) : a = b := by
  unfold turn at same
  split at same <;> split at same
  · rename_i isA isB
    rw [isA, isB]
  · exact absurd same.symm bOld
  · exact absurd same aOld
  · exact same

section Effects

variable (wellFormed : graph.WellFormed)
include wellFormed

theorem isOld_of_branch {t : Nat} (member : t ∈ graph.branches v) : t < graph.size :=
  wellFormed.consistent.inRange v t (mem_branches.mp member).1

theorem Collapsed.branches_old (fits : graph.Fits collapse)
    (collapsed : Collapsed graph collapse new changed) (notNew : v ≠ new)
    (outside : v ∉ collapse.members) :
    changed.branches v = (graph.branches v).map (turn collapse.entry new) := by
  have newReal : new ≠ terminator := by
    have := collapsed.size_le
    have := wellFormed.consistent.atLeastTwo
    simp only [terminator]
    omega
  have entryReal := wellFormed.ne_terminator_of_isLive (fits.live _ fits.entry_mem)
  rw [branches, collapsed.successors_old notNew, if_neg outside,
    filter_map_turn entryReal newReal, branches]

omit wellFormed in
/-- The new vertex branches where the collapse leads. -/
theorem Collapsed.branches_new (collapsed : Collapsed graph collapse new changed)
    (entryReal : collapse.entry ≠ terminator) (newReal : new ≠ terminator) :
    changed.branches new =
      (collapse.out.filter (· != terminator)).map (turn collapse.entry new) := by
  have turned := filter_map_turn entryReal newReal collapse.out
  rw [branches, collapsed.successors_new, ← turned]
  unfold collapsedTargets
  dsimp only
  split
  · rw [List.filter_append]
    simp only [List.filter_cons, bne_self_eq_false, Bool.false_eq_true, if_false, List.filter_nil,
      List.append_nil]
    rfl
  · rfl

/-- Regions outside a collapse keep their branches. -/
theorem Collapsed.redirected_old (fits : graph.Fits collapse)
    (collapsed : Collapsed graph collapse new changed)
    (sameFirst : changed.firstVertex? new = graph.firstVertex? collapse.entry)
    (within : v < graph.size) (outside : v ∉ collapse.members) :
    Redirected graph changed v v := by
  have later := collapsed.size_le
  have old {t : Nat} (member : t ∈ graph.branches v) := isOld_of_branch wellFormed member
  refine .of_map (collapsed.branches_old wellFormed fits (by omega) outside) ?_ ?_
  · intro t member
    by_cases isEntry : t = collapse.entry
    · rw [isEntry, turn_old, sameFirst]
    · rw [turn_of_ne isEntry, collapsed.growth.firstVertex?_eq wellFormed.nested (old member)]
  · intro a aMember b bMember same
    have := old aMember
    have := old bMember
    exact turn_injective (by omega) (by omega) same

theorem Severed.firstVertex?_jump {source target : Nat}
    (severed : Severed graph source target changed) (after : changed.WellFormed)
    (within : target < graph.size) :
    changed.firstVertex? graph.size = graph.firstVertex? target := by
  rw [after.firstVertex?_unfold (by rw [severed.size_eq]; omega), severed.table_new]
  exact severed.growth.firstVertex?_eq wellFormed.nested within

/-- Cutting an edge keeps where branches start: the jump starts where its target
does. -/
theorem Severed.redirected_old {source target : Nat}
    (severed : Severed graph source target changed) (after : changed.WellFormed)
    (targetLive : graph.isLive target = true) : Redirected graph changed v v := by
  have targetWithin := Digraph.lt_size_of_isLive targetLive
  have jumpReal : graph.size ≠ terminator := by
    have := wellFormed.consistent.two_le_of_isLive targetLive
    simp only [terminator]
    omega
  have old {t : Nat} (member : t ∈ graph.branches v) := isOld_of_branch wellFormed member
  by_cases isSource : v = source
  · refine .of_map (f := turn target graph.size) ?_ ?_ ?_
    · rw [branches, severed.successors_eq, if_pos isSource,
        filter_map_turn (wellFormed.ne_terminator_of_isLive targetLive) jumpReal, branches]
    · intro t member
      by_cases isTarget : t = target
      · rw [isTarget, turn_old, severed.firstVertex?_jump wellFormed after targetWithin]
      · rw [turn_of_ne isTarget, severed.growth.firstVertex?_eq wellFormed.nested (old member)]
    · intro a aMember b bMember same
      have := old aMember
      have := old bMember
      exact turn_injective (by omega) (by omega) same
  · refine .of_map (f := id) ?_ ?_ fun a _ b _ same => same
    · rw [branches, severed.successors_eq, if_neg isSource, List.map_id, branches]
    · intro t member
      exact severed.growth.firstVertex?_eq wellFormed.nested (old member)

/-- Detaching strays changes no branch: what is reached leads to no stray. -/
theorem Pruned.redirected_old {regions : List Nat} (pruned : Pruned graph regions changed)
    (kept : v ∉ regions) (closed : ∀ t ∈ graph.successors v, t ∉ regions) :
    Redirected graph changed v v := by
  refine .of_map (f := id) ?_ ?_ fun a _ b _ same => same
  · rw [branches, pruned.successors_eq, if_neg kept, List.map_id, branches,
      List.filter_eq_self.mpr fun t member => decide_eq_true (closed t member)]
  · intro t member
    exact pruned.growth.firstVertex?_eq wellFormed.nested (isOld_of_branch wellFormed member)

/-- A jump leads nowhere. -/
theorem ending_jump (isJump : graph.isJump v = true) : Ending config targets graph v := by
  obtain ⟨place, cond, found⟩ := isJump_iff.mp isJump
  have within := lt_size_of_table found
  refine .closed ?_ ?_ ?_
  · rw [wellFormed.branchingVertex?_unfold within, found]
    rfl
  · rw [wellFormed.branchCond?_unfold within, found]
    cases cond <;> rfl
  · simp [branches, wellFormed.jump_sink isJump]

end Effects

/-- A target of a copy is the terminator when the one it stands for is. -/
theorem Stands.beq_terminator (wellFormed : graph.WellFormed) {t t' : Nat}
    (stands : Stands graph changed t t') : (t == terminator) = (t' == terminator) := by
  cases stands with
  | same _ => rfl
  | jump isJump later _ =>
      have tReal := wellFormed.two_le_of_isJump (isJump_iff.mpr ⟨_, _, isJump⟩)
      have size := wellFormed.consistent.atLeastTwo
      rw [beq_eq_false_iff_ne.mpr (by simp only [terminator]; omega),
        beq_eq_false_iff_ne.mpr (by simp only [terminator]; omega)]

section Copies

variable {outside : List Nat} (wellFormed : graph.WellFormed) (after : changed.WellFormed)
  (copied : Copied graph v outside changed)
include wellFormed after copied

theorem Copied.firstVertex?_copy (within : v < graph.size) :
    changed.firstVertex? graph.size = graph.firstVertex? v := by
  rw [after.firstVertex?_unfold copied.size_lt, copied.table_copy]
  exact copied.growth.firstVertex?_eq wellFormed.nested within

/-- A target of the copy starts where the target it stands for starts. -/
theorem Copied.firstVertex?_stands {t t' : Nat} (within : t < graph.size)
    (stands : Stands graph changed t t') : changed.firstVertex? t' = graph.firstVertex? t := by
  cases stands with
  | same _ => exact copied.growth.firstVertex?_eq wellFormed.nested within
  | @jump _ place cond isJump later isCopy =>
      have placeBefore : place < t :=
        wellFormed.nested.below isJump place (by simp [Node.references])
      rw [after.firstVertex?_unfold (lt_size_of_table isCopy), isCopy,
        wellFormed.firstVertex?_unfold within, isJump]
      exact copied.growth.firstVertex?_eq wellFormed.nested (by omega)

/-- Old regions keep where their branches start: the copy starts where the
region does. -/
theorem Copied.redirected_old {u : Nat} (regionLive : graph.isLive v = true)
    (within : u < graph.size) : Redirected graph changed u u := by
  have copyReal : graph.size ≠ terminator := by
    have := wellFormed.consistent.two_le_of_isLive regionLive
    have := Digraph.lt_size_of_isLive regionLive
    simp only [terminator]
    omega
  have old {t : Nat} (member : t ∈ graph.branches u) := isOld_of_branch wellFormed member
  have successors := copied.successors_old (Nat.ne_of_lt within)
  by_cases isOutside : u ∈ outside
  · refine .of_map (f := turn v graph.size) ?_ ?_ ?_
    · rw [branches, successors, if_pos isOutside,
        filter_map_turn (wellFormed.ne_terminator_of_isLive regionLive) copyReal, branches]
    · intro t member
      by_cases isRegion : t = v
      · rw [isRegion, turn_old,
          copied.firstVertex?_copy wellFormed after (Digraph.lt_size_of_isLive regionLive)]
      · rw [turn_of_ne isRegion, copied.growth.firstVertex?_eq wellFormed.nested (old member)]
    · intro a aMember b bMember same
      have := old aMember
      have := old bMember
      exact turn_injective (by omega) (by omega) same
  · refine .of_map (f := id) ?_ ?_ fun a _ b _ same => same
    · rw [branches, successors, if_neg isOutside, List.map_id, branches]
    · intro t member
      exact copied.growth.firstVertex?_eq wellFormed.nested (old member)

omit after in
/-- The branches of the copy stand for those of the region. -/
theorem Copied.branches_copy :
    List.Forall₂ (Stands graph changed) (graph.branches v) (changed.branches graph.size) := by
  have successors := copied.successors_copy
  unfold branches
  generalize graph.successors v = left at successors
  generalize changed.successors graph.size = right at successors
  induction successors with
  | nil => exact .nil
  | cons stands _ inductionHypothesis =>
      rw [List.filter_cons, List.filter_cons, bne, bne, stands.beq_terminator wellFormed]
      split
      · exact .cons stands inductionHypothesis
      · exact inductionHypothesis

theorem Copied.redirected_copy : Redirected graph changed v graph.size := by
  have stands := copied.branches_copy wellFormed
  refine ⟨?_, ?_⟩
  · refine List.Forall₂.imp ?_ ((List.forall₂_and_left _ _).mpr
      ⟨fun t member => isOld_of_branch wellFormed member, stands⟩)
    intro t t' both
    exact copied.firstVertex?_stands wellFormed after both.1 both.2
  · intro a b a' b' before behind differ same
    rw [before, behind] at stands
    simp only [List.forall₂_cons, List.forall₂_nil_left_iff, and_true] at stands
    have aOld := isOld_of_branch wellFormed (v := v) (t := a) (by simp [before])
    have bOld := isOld_of_branch wellFormed (v := v) (t := b) (by simp [before])
    subst same
    rcases stands with ⟨first, second⟩
    cases first with
    | same _ =>
        cases second with
        | same _ => exact differ rfl
        | jump _ later _ => omega
    | jump _ later _ =>
        -- Each new jump is led to once.
        have twice : [a', a'].Sublist ((changed.successors graph.size).filter
            fun t => decide (graph.size < t)) := by
          have sublist : [a', a'].Sublist (changed.successors graph.size) := by
            rw [← behind]
            exact List.filter_sublist
          simpa [later] using sublist.filter fun t => decide (graph.size < t)
        have distinct := copied.fresh_distinct.sublist twice
        simp at distinct

theorem Copied.branchingVertex?_copy (within : v < graph.size) :
    changed.branchingVertex? graph.size = graph.branchingVertex? v := by
  rw [after.branchingVertex?_unfold copied.size_lt, copied.table_copy]
  exact copied.growth.branchingVertex?_eq wellFormed.nested within

theorem Copied.branchCond?_copy (within : v < graph.size) :
    changed.branchCond? graph.size = graph.branchCond? v := by
  rw [after.branchCond?_unfold copied.size_lt, copied.table_copy]
  exact copied.growth.branchCond?_eq wellFormed.nested within

end Copies

end RegionGraph

end FlowRegions
