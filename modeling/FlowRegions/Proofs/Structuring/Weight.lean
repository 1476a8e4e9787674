import FlowRegions.Proofs.Structuring.Edits
import FlowRegions.Proofs.Structuring.RulesFit
import Mathlib.Algebra.BigOperators.Group.Finset.Basic
import Mathlib.Algebra.GroupWithZero.Nat
import Mathlib.Algebra.Order.BigOperators.Group.Finset

/-!
Contract: how the effects of a step change the weight of a region graph.

Owns:
- `RegionGraph.cost`, what a live region adds to the weight, and
  `RegionGraph.heft`, what a list of targets adds to a cost;
- the weight behind a collapse, a cut and a prune in terms of the weight
  before;
- `Collapse.IsIdle`, the only collapse that does not lower the weight: a switch
  with one branch and no arm.
-/

namespace FlowRegions

open FlowRegions.Digraph (root terminator)

/-- A collapse that turns a single edge into a switch without arms. -/
def Collapse.IsIdle (collapse : Collapse) : Prop :=
  ∃ head, collapse.node.shape = .switch head [{ edges := [0], body := none }]

namespace RegionGraph

variable {config : Config} {labels : List Nat} {graph changed : RegionGraph} {v : Nat}
  {collapse : Collapse}

/-! ## Costs -/

/-- The number of targets that are real regions but no jumps. -/
def heft (graph : RegionGraph) (targets : List Nat) : Nat :=
  targets.countP fun t => t != terminator && !graph.isJump t

def cost (graph : RegionGraph) (v : Nat) : Nat :=
  1 + 2 * (graph.weightyEdges v).length

def liveSet (graph : RegionGraph) : Finset Nat :=
  graph.liveIndices.toFinset

theorem mem_liveSet : v ∈ graph.liveSet ↔ graph.isLive v = true := by
  rw [liveSet, List.mem_toFinset, Digraph.mem_liveIndices]

theorem weight_eq_sum (graph : RegionGraph) :
    graph.weight = ∑ v ∈ graph.liveSet, graph.cost v := by
  have distinct : graph.liveIndices.Nodup := List.nodup_range.filter _
  rw [liveSet, List.sum_toFinset _ distinct]
  rfl

theorem heft_nil (graph : RegionGraph) : graph.heft [] = 0 :=
  rfl

theorem heft_append (graph : RegionGraph) (first second : List Nat) :
    graph.heft (first ++ second) = graph.heft first + graph.heft second :=
  List.countP_append

theorem heft_cons (graph : RegionGraph) (t : Nat) (targets : List Nat) :
    graph.heft (t :: targets) = graph.heft [t] + graph.heft targets :=
  heft_append graph [t] targets

theorem heft_terminator (graph : RegionGraph) : graph.heft [terminator] = 0 :=
  rfl

theorem heft_singleton_le {t : Nat} {targets : List Nat} (member : t ∈ targets) :
    graph.heft [t] ≤ graph.heft targets :=
  List.Sublist.countP_le (List.singleton_sublist.mpr member)

theorem heft_of_not_isJump (notEnd : v ≠ terminator) (notJump : graph.isJump v = false) :
    graph.heft [v] = 1 := by
  simp [heft, notEnd, notJump]

theorem heft_branches (graph : RegionGraph) (v : Nat) :
    graph.heft (graph.branches v) = graph.heft (graph.successors v) := by
  rw [heft, heft, branches, List.countP_filter]
  refine List.countP_congr fun t _ => ?_
  cases t != terminator <;> simp

/-- Targets that are read the same way in another graph weigh the same. -/
theorem heft_map_congr {targets : List Nat} {f : Nat → Nat}
    (same : ∀ t ∈ targets, (f t != terminator && !changed.isJump (f t)) =
      (t != terminator && !graph.isJump t)) :
    changed.heft (targets.map f) = graph.heft targets := by
  rw [heft, heft, List.countP_map]
  refine List.countP_congr fun t member => ?_
  rw [Function.comp_apply, same t member]

namespace WellFormed

variable (wellFormed : graph.WellFormed)
include wellFormed

theorem cost_eq (v : Nat) : graph.cost v = 1 + 2 * graph.heft (graph.successors v) := by
  rw [cost, ← heft_branches, heft, weightyEdges]
  split
  · rename_i isJump
    simp [branches, wellFormed.jump_sink isJump]
  · rw [← List.countP_eq_length_filter]
    congr 2
    refine List.countP_congr fun t member => ?_
    simp [(mem_branches.mp member).2]

/-- A region that leads somewhere is a target that counts. -/
theorem heft_of_exit {t : Nat} (live : graph.isLive v = true) (isExit : t ∈ graph.exits v) :
    graph.heft [v] = 1 :=
  heft_of_not_isJump (wellFormed.ne_terminator_of_isLive live)
    (wellFormed.not_isJump_of_mem (mem_exits.mp isExit).1)

/-- A region costs at least as much as one that leads to one of its exits. -/
theorem exit_le_cost {t : Nat} (isExit : t ∈ graph.exits v) :
    1 + 2 * graph.heft [t] ≤ graph.cost v := by
  have le : graph.heft [t] ≤ graph.heft (graph.successors v) :=
    heft_singleton_le (mem_exits.mp isExit).1
  rw [wellFormed.cost_eq]
  omega

end WellFormed

theorem one_le_cost (graph : RegionGraph) (v : Nat) : 1 ≤ graph.cost v :=
  Nat.le_add_right 1 _

/-! ## Collapses -/

theorem TwoWay.heft_eq {taken other : Nat} {cond : Option Cond}
    (twoWay : TwoWay config graph v taken other cond) :
    graph.heft (graph.successors v) = graph.heft [taken] + graph.heft [other] := by
  rw [← heft_branches]
  rcases twoWay.order with ⟨branches, _⟩ | ⟨branches, _⟩
  · rw [branches, heft_cons]
  · rw [branches, heft_cons, Nat.add_comm]

theorem TopTested.heft_eq (wellFormed : graph.WellFormed) {body follow : Nat}
    {cond : Option Cond} (loop : TopTested config graph v body follow cond) :
    graph.heft (graph.successors v) = 1 + graph.heft [follow] := by
  have isBranch := (loop.twoWay.mem_branches body).mpr (.inl rfl)
  rw [loop.twoWay.heft_eq, wellFormed.heft_of_exit (wellFormed.isLive_of_mem_branches isBranch)
    (by rw [loop.body_exits]; exact List.mem_singleton_self v)]

/-- Folding a test keeps the targets of the inner branch. -/
theorem heft_foldedBranch? {m first second : Nat} {folded : Cond}
    {outer inner : Cond × Nat × Nat}
    (branch : foldedBranch? m outer inner = some (folded, first, second)) :
    graph.heft [first, second] = graph.heft [inner.2.1, inner.2.2] := by
  rw [heft_cons, heft_cons graph inner.2.1]
  rcases foldedBranch?_cases branch with
    ⟨_, shared, _, rfl, rfl⟩ | ⟨_, shared, _, rfl, rfl⟩ | ⟨_, shared, _, rfl, rfl⟩ |
    ⟨_, shared, _, rfl, rfl⟩ <;> rw [shared] <;> omega

/-- A switch without arms has one target. -/
theorem Switching.branches_of_no_arms {follow : Option Nat}
    (switching : Switching config graph v follow []) :
    ∃ f, follow = some f ∧ graph.exits v = [f] ∧ graph.entersAlone v f = false := by
  have isFollow : ∀ d ∈ graph.exits v, follow = some d := by
    intro d member
    by_contra different
    have : d ∈ ([] : List Nat) := by
      rw [switching.arms_eq]
      simp [member, different]
    cases this
  obtain ⟨f, isExit⟩ := List.exists_mem_of_ne_nil _ switching.some_exit
  have found := isFollow f isExit
  refine ⟨f, found, (eq_singleton_iff (nodup_exits graph v)).mpr ⟨isExit, fun d member => ?_⟩, ?_⟩
  · have := isFollow d member
    rw [found] at this
    exact (Option.some.inj this).symm
  · rcases switching.follow_edge f found with shared | ⟨d, isArm, _⟩
    · exact shared.2
    · cases isArm

/-- A list whose only member is `f` repeats it. -/
theorem heft_of_exits_singleton {f : Nat} (exits : graph.exits v = [f]) :
    graph.heft (graph.successors v) = (graph.branches v).length * graph.heft [f] := by
  have only : ∀ d ∈ graph.branches v, d = f := fun d member => by
    have : d ∈ graph.exits v := List.mem_eraseDups.mpr member
    rw [exits] at this
    exact List.mem_singleton.mp this
  rw [← heft_branches]
  generalize graph.branches v = targets at only
  induction targets with
  | nil => simp [heft]
  | cons t rest inductionHypothesis =>
      rw [heft_cons, only t List.mem_cons_self,
        inductionHypothesis fun d member => only d (List.mem_cons_of_mem _ member),
        List.length_cons, Nat.succ_mul, Nat.add_comm]

/-- The place where the arms of a switch meet weighs no more than the switch
without one of its members. -/
theorem Switching.lighter (wellFormed : graph.WellFormed) {follow : Option Nat}
    {arms : List Nat} (switching : Switching config graph v follow arms) :
    1 + 2 * graph.heft follow.toList < ((v :: arms).map graph.cost).sum ∨
      arms = [] ∧ ∃ f, follow = some f ∧ graph.branches v = [f] := by
  have headCost := one_le_cost graph v
  rw [List.map_cons, List.sum_cons]
  cases arms with
  | nil =>
      obtain ⟨f, rfl, exits, shared⟩ := switching.branches_of_no_arms
      have isExit : f ∈ graph.exits v := by rw [exits]; simp
      have live := wellFormed.isLive_of_mem_exits isExit
      have notJump : graph.isJump f = false := by
        cases isJump : graph.isJump f with
        | false => rfl
        | true =>
            have edge := (mem_exits.mp isExit).1
            have alone := (entersAlone_iff wellFormed.consistent).mpr
              ⟨edge, fun q other => wellFormed.jump_entrant isJump other edge⟩
            rw [shared] at alone
            cases alone
      have heavy := heft_of_not_isJump (wellFormed.ne_terminator_of_isLive live) notJump
      by_cases single : (graph.branches v).length = 1
      · obtain ⟨d, branches⟩ := List.length_eq_one_iff.mp single
        have : d ∈ graph.exits v := List.mem_eraseDups.mpr (by rw [branches]; simp)
        rw [exits] at this
        exact .inr ⟨rfl, f, rfl, by rw [branches, List.mem_singleton.mp this]⟩
      · have someBranch : (graph.branches v).length ≠ 0 := fun none => by
          rw [exits_eq_nil_iff.mpr (List.length_eq_zero_iff.mp none)] at exits
          cases exits
        have := heft_of_exits_singleton exits
        rw [heavy, Nat.mul_one] at this
        rw [wellFormed.cost_eq, this]
        simp only [Option.toList_some, heavy, List.map_nil, List.sum_nil]
        omega
  | cons arm arms =>
      refine .inl ?_
      have armCost := one_le_cost graph arm
      rw [List.map_cons, List.sum_cons]
      cases follow with
      | none =>
          rw [Option.toList_none, heft_nil]
          omega
      | some f =>
          rw [Option.toList_some]
          rcases switching.follow_edge f rfl with ⟨isExit, _⟩ | ⟨d, isArm, isExit⟩
          · have := wellFormed.exit_le_cost isExit
            omega
          · have lighter := wellFormed.exit_le_cost isExit
            have : graph.cost d ≤ ((arm :: arms).map graph.cost).sum :=
              List.le_sum_of_mem (List.mem_map.mpr ⟨d, isArm, rfl⟩)
            rw [List.map_cons, List.sum_cons] at this
            omega

/-- The positions of a target in a branch list. -/
theorem mem_positionsOf {branches : List Nat} {target k : Nat} :
    k ∈ positionsOf branches target ↔ branches[k]? = some target := by
  unfold positionsOf
  rw [List.mem_map]
  constructor
  · rintro ⟨⟨branch, _⟩, member, rfl⟩
    obtain ⟨isBranch, same⟩ := List.mem_filter.mp member
    rw [beq_iff_eq] at same
    rw [← same]
    exact List.mem_zipIdx_iff_getElem?.mp isBranch
  · intro found
    exact ⟨(target, k), List.mem_filter.mpr
      ⟨List.mem_zipIdx_iff_getElem?.mpr found, by simp⟩, rfl⟩

/-- A switch is idle when its one branch leads to the place where its arms
meet. -/
theorem Switching.isIdle_iff {follow : Option Nat} {arms : List Nat} {collapse : Collapse}
    (switching : Switching config graph v follow arms)
    (shape : collapse.node.shape = .switch v ((graph.branches v).eraseDups.map fun d =>
      { edges := positionsOf (graph.branches v) d
        body := if follow = some d then none else some d : Arm Nat })) :
    collapse.IsIdle ↔ arms = [] ∧ ∃ f, follow = some f ∧ graph.branches v = [f] := by
  constructor
  · rintro ⟨head, isIdle⟩
    rw [shape] at isIdle
    injection isIdle with _ isArm
    obtain ⟨f, exits, isArm⟩ := List.map_eq_singleton_iff.mp isArm
    injection isArm with edges body
    have isFollow : follow = some f := by
      by_contra different
      rw [if_neg different] at body
      cases body
    have only : ∀ d ∈ graph.branches v, d = f := fun d member => by
      have : d ∈ (graph.branches v).eraseDups := List.mem_eraseDups.mpr member
      rw [exits] at this
      exact List.mem_singleton.mp this
    refine ⟨?_, f, isFollow, ?_⟩
    · rw [switching.arms_eq, show graph.exits v = [f] from exits, isFollow]
      simp
    · match branches : graph.branches v with
      | [] =>
          rw [branches] at exits
          cases exits
      | [d] => rw [only d (by simp [branches])]
      | first :: second :: rest =>
          have again : 1 ∈ positionsOf (graph.branches v) f := mem_positionsOf.mpr (by
            rw [branches, ← only second (by simp [branches])]
            rfl)
          rw [edges] at again
          simp at again
  · rintro ⟨_, f, rfl, branches⟩
    refine ⟨v, ?_⟩
    rw [shape, branches]
    simp [positionsOf, List.eraseDups_cons]

/-- An idle collapse leaves what weighs as much as what it takes. -/
theorem Matches.weight_eq_of_isIdle (wellFormed : graph.WellFormed)
    (found : Matches config labels graph v collapse) (idle : collapse.IsIdle) :
    1 + 2 * graph.heft collapse.out = (collapse.members.map graph.cost).sum := by
  cases found with
  | @switch follow arms returns switching returnsIff =>
      obtain ⟨rfl, f, rfl, branches⟩ := (switching.isIdle_iff rfl).mp idle
      have costEq := wellFormed.cost_eq v
      rw [← heft_branches, branches] at costEq
      simp only [Option.toList_some, List.map_cons, List.map_nil, List.sum_cons, List.sum_nil]
      omega
  | compound foldable branch =>
      obtain ⟨head, shape⟩ := idle
      have kind := foldable.head_kind
      rw [Node.kind, shape] at kind
      simp [Shape.kind] at kind
  | _ =>
      obtain ⟨head, shape⟩ := idle
      cases shape

/-- What any other collapse leaves weighs less than what it takes. -/
theorem Matches.weight_lt_of_not_isIdle (wellFormed : graph.WellFormed)
    (live : graph.isLive v = true) (found : Matches config labels graph v collapse)
    (busy : ¬ collapse.IsIdle) :
    1 + 2 * graph.heft collapse.out < (collapse.members.map graph.cost).sum := by
  have cost_eq := wellFormed.cost_eq
  have one_le (t : Nat) := one_le_cost graph t
  have isExit {w t : Nat} (member : t ∈ graph.branches w) : t ∈ graph.exits w :=
    List.mem_eraseDups.mpr member
  have sole {w t : Nat} (exits : graph.exits w = [t]) : t ∈ graph.exits w := by
    rw [exits]
    exact List.mem_singleton_self t
  cases found with
  | forever again only =>
      have := wellFormed.heft_of_exit live (isExit again)
      have := wellFormed.exit_le_cost (isExit again)
      simp only [List.map_cons, List.map_nil, List.sum_cons, List.sum_nil, heft_nil]
      omega
  | selfLoop twoWay leaves =>
      have := wellFormed.heft_of_exit live (isExit ((twoWay.mem_branches v).mpr (.inl rfl)))
      have := twoWay.heft_eq
      have := cost_eq v
      simp only [List.map_cons, List.map_nil, List.sum_cons, List.sum_nil]
      omega
  | @whileLoop body follow cond loop =>
      have := loop.heft_eq wellFormed
      have := cost_eq v
      simp only [List.map_cons, List.map_nil, List.sum_cons, List.sum_nil]
      omega
  | @forLoop body follow init step inner nodes part cond loop counting isInner =>
      have := loop.heft_eq wellFormed
      have := cost_eq v
      simp only [List.map_cons, List.map_nil, List.sum_cons, List.sum_nil]
      omega
  | @doWhile latch follow cond exits proper alone twoWay leaves =>
      have := wellFormed.heft_of_exit live (sole exits)
      have := twoWay.heft_eq
      have := cost_eq latch
      simp only [List.map_cons, List.map_nil, List.sum_cons, List.sum_nil]
      omega
  | @compound m vertex first second head folded outer inner foldable branch =>
      have kept : graph.heft [first, second] = _ := heft_foldedBranch? branch
      rw [← foldable.inner_branches, heft_branches] at kept
      have := cost_eq m
      have := one_le v
      simp only [List.map_cons, List.map_nil, List.sum_cons, List.sum_nil]
      omega
  | @sequence next exits proper alone ends =>
      have := cost_eq next
      have := one_le v
      simp only [List.map_cons, List.map_nil, List.sum_cons, List.sum_nil]
      omega
  | @ifElse thenArm elseArm follow notMany branches proper thenAlone elseAlone followEq atMostOne
      outside =>
      have headCost := one_le v
      have thenCost := one_le thenArm
      have elseCost := one_le elseArm
      simp only [List.map_cons, List.map_nil, List.sum_cons, List.sum_nil]
      rcases follow with _ | ⟨f, _ | ⟨second, rest⟩⟩
      · rw [heft_nil]
        omega
      · have member : f ∈ graph.exits thenArm ++ graph.exits elseArm :=
          List.mem_eraseDups.mp (by rw [← followEq]; simp)
        rcases List.mem_append.mp member with ofThen | ofElse
        · have := wellFormed.exit_le_cost ofThen
          omega
        · have := wellFormed.exit_le_cost ofElse
          omega
      · simp at atMostOne
  | @ifThen arm follow cond twoWay proper alone exits =>
      have := wellFormed.exit_le_cost (isExit ((twoWay.mem_branches follow).mpr (.inr rfl)))
      have := one_le arm
      simp only [List.map_cons, List.map_nil, List.sum_cons, List.sum_nil]
      omega
  | @switch follow arms returns switching returnsIff =>
      rcases switching.lighter wellFormed with lighter | isIdle
      · exact lighter
      · exact absurd ((switching.isIdle_iff rfl).mpr isIdle) busy

/-- What a collapse leaves weighs less than what it takes, unless it is idle. -/
theorem Matches.lighter (wellFormed : graph.WellFormed) (live : graph.isLive v = true)
    (found : Matches config labels graph v collapse) :
    (¬ collapse.IsIdle ∧
        1 + 2 * graph.heft collapse.out < (collapse.members.map graph.cost).sum) ∨
      (collapse.IsIdle ∧
        1 + 2 * graph.heft collapse.out = (collapse.members.map graph.cost).sum) := by
  by_cases idle : collapse.IsIdle
  · exact .inr ⟨idle, found.weight_eq_of_isIdle wellFormed idle⟩
  · exact .inl ⟨idle, found.weight_lt_of_not_isIdle wellFormed live idle⟩

/-- No member of a collapse is named twice. -/
theorem Matches.nodup (found : Matches config labels graph v collapse) :
    collapse.members.Nodup := by
  cases found with
  | forever again only => exact List.nodup_singleton v
  | selfLoop twoWay leaves => exact List.nodup_singleton v
  | whileLoop loop => simpa using loop.body_ne_head.symm
  | @forLoop body follow init step inner nodes part cond loop counting isInner =>
      simpa using ⟨⟨counting.init_ne_head loop, counting.init_ne_body⟩, loop.body_ne_head.symm⟩
  | doWhile exits proper alone twoWay leaves => simpa using proper.symm
  | compound foldable branch =>
      have outer := foldable.outer_proper
      rcases foldable.isArm with rfl | rfl
      · simpa using outer.2.1.symm
      · simpa using outer.2.2.symm
  | sequence exits proper alone ends => simpa using proper.symm
  | ifElse notMany branches proper thenAlone elseAlone followEq atMostOne outside =>
      simpa using ⟨⟨proper.2.1.symm, proper.2.2.symm⟩, proper.1⟩
  | ifThen twoWay proper alone exits => simpa using proper.2.1.symm
  | switch switching returnsIff =>
      refine List.nodup_cons.mpr ⟨fun isArm => ?_, ?_⟩
      · rw [switching.arms_eq] at isArm
        exact switching.not_self (List.mem_filter.mp isArm).1
      · rw [switching.arms_eq]
        exact (nodup_exits graph v).filter _

/-! ## The weight behind each effect -/

/-- The weight splits at a set of live regions. -/
theorem weight_eq_add {taken : Finset Nat} (live : taken ⊆ graph.liveSet) :
    graph.weight = ∑ v ∈ graph.liveSet \ taken, graph.cost v + ∑ v ∈ taken, graph.cost v := by
  rw [weight_eq_sum, Finset.sum_sdiff live]

/-- A sum over the live regions when a collapse keeps what the regions outside
of it add. -/
theorem Collapsed.sum_liveSet {new : Nat} (fits : graph.Fits collapse)
    (distinct : collapse.members.Nodup) (collapsed : Collapsed graph collapse new changed)
    {before after : Nat → Nat}
    (same : ∀ w, graph.isLive w = true → w ∉ collapse.members → after w = before w) :
    ∑ w ∈ changed.liveSet, after w + (collapse.members.map before).sum =
      ∑ w ∈ graph.liveSet, before w + after new := by
  have liveEq : changed.liveSet = insert new (graph.liveSet \ collapse.members.toFinset) := by
    ext w
    rw [mem_liveSet, collapsed.live_iff, Finset.mem_insert, Finset.mem_sdiff, mem_liveSet,
      List.mem_toFinset]
  have fresh : new ∉ graph.liveSet \ collapse.members.toFinset := by
    intro member
    have := Digraph.lt_size_of_isLive (mem_liveSet.mp (Finset.mem_sdiff.mp member).1)
    have := collapsed.new_eq
    omega
  have taken : collapse.members.toFinset ⊆ graph.liveSet := fun w member =>
    mem_liveSet.mpr (fits.live w (List.mem_toFinset.mp member))
  have kept : ∑ w ∈ graph.liveSet \ collapse.members.toFinset, after w =
      ∑ w ∈ graph.liveSet \ collapse.members.toFinset, before w := by
    refine Finset.sum_congr rfl fun w member => ?_
    obtain ⟨live, outside⟩ := Finset.mem_sdiff.mp member
    exact same w (mem_liveSet.mp live) (List.mem_toFinset.not.mp outside)
  rw [liveEq, Finset.sum_insert fresh, kept, ← Finset.sum_sdiff taken,
    List.sum_toFinset before distinct]
  omega

/-- Edges into the entry weigh the same when they lead to the new region. -/
theorem Collapsed.heft_turn {new : Nat} (wellFormed : graph.WellFormed)
    (fits : graph.Fits collapse) (collapsed : Collapsed graph collapse new changed)
    {targets : List Nat} (within : ∀ t ∈ targets, t < graph.size) :
    changed.heft (targets.map (turn collapse.entry new)) = graph.heft targets := by
  have after := collapsed.keeps_wellFormed wellFormed fits
  have entryLive := fits.live _ fits.entry_mem
  have newLive := (collapsed.live_iff new).mpr (.inl rfl)
  obtain ⟨exit, isBranch⟩ := List.exists_mem_of_ne_nil _ fits.entry_branches
  have entryNotJump := wellFormed.not_isJump_of_mem (mem_branches.mp isBranch).1
  refine heft_map_congr fun t member => ?_
  by_cases isEntry : t = collapse.entry
  · rw [isEntry, turn_old, entryNotJump, collapsed.new_not_isJump fits,
      bne_iff_ne.mpr (after.ne_terminator_of_isLive newLive),
      bne_iff_ne.mpr (wellFormed.ne_terminator_of_isLive entryLive)]
  · rw [turn_of_ne isEntry, isJump_congr (collapsed.table_old (within t member))]

theorem Collapsed.cost_new {new : Nat} (wellFormed : graph.WellFormed)
    (fits : graph.Fits collapse) (collapsed : Collapsed graph collapse new changed) :
    changed.cost new = 1 + 2 * graph.heft collapse.out := by
  have turned := collapsed.heft_turn wellFormed fits fun t member => by
    obtain ⟨m, _, edge⟩ := fits.out_edge t member
    exact wellFormed.consistent.inRange m t edge
  have targets : changed.heft (collapsedTargets collapse new) = graph.heft collapse.out := by
    unfold collapsedTargets
    dsimp only
    split
    · rw [heft_append, heft_terminator, Nat.add_zero]
      exact turned
    · exact turned
  rw [(collapsed.keeps_wellFormed wellFormed fits).cost_eq, collapsed.successors_new, targets]

theorem Collapsed.cost_old {new w : Nat} (wellFormed : graph.WellFormed)
    (fits : graph.Fits collapse) (collapsed : Collapsed graph collapse new changed)
    (live : graph.isLive w = true) (outside : w ∉ collapse.members) :
    changed.cost w = graph.cost w := by
  have notNew : w ≠ new := by
    have := Digraph.lt_size_of_isLive live
    have := collapsed.size_le
    omega
  rw [(collapsed.keeps_wellFormed wellFormed fits).cost_eq, wellFormed.cost_eq,
    collapsed.successors_old notNew, if_neg outside,
    collapsed.heft_turn wellFormed fits (wellFormed.consistent.inRange w)]

theorem Collapsed.weight_eq {new : Nat} (wellFormed : graph.WellFormed)
    (fits : graph.Fits collapse) (distinct : collapse.members.Nodup)
    (collapsed : Collapsed graph collapse new changed) :
    changed.weight + (collapse.members.map graph.cost).sum =
      graph.weight + (1 + 2 * graph.heft collapse.out) := by
  rw [weight_eq_sum, weight_eq_sum, ← collapsed.cost_new wellFormed fits]
  exact collapsed.sum_liveSet fits distinct fun w live outside =>
    collapsed.cost_old wellFormed fits live outside

/-- Every cut edge no longer counts. -/
theorem Severed.heft_turn {source target : Nat} (wellFormed : graph.WellFormed)
    (severed : Severed graph source target changed) (live : graph.isLive target = true)
    (notJump : graph.isJump target = false) {targets : List Nat}
    (within : ∀ t ∈ targets, t < graph.size) :
    changed.heft (targets.map (turn target graph.size)) + targets.count target =
      graph.heft targets := by
  have jump : changed.isJump graph.size = true :=
    (severed.isJump_iff_old).mpr (.inl rfl)
  have noHeft : changed.heft [graph.size] = 0 := by simp [heft, jump]
  have heavy := heft_of_not_isJump (wellFormed.ne_terminator_of_isLive live) notJump
  induction targets with
  | nil => rfl
  | cons t targets inductionHypothesis =>
      have rest := inductionHypothesis fun t member => within t (List.mem_cons_of_mem _ member)
      rw [List.map_cons, heft_cons, heft_cons graph]
      by_cases isTarget : t = target
      · subst isTarget
        rw [turn_old, noHeft, List.count_cons_self, heavy]
        omega
      · have same : changed.heft [t] = graph.heft [t] := by
          have old := severed.table_old (within t List.mem_cons_self)
          rw [heft, heft, List.countP_singleton, List.countP_singleton, isJump_congr old]
        rw [turn_of_ne isTarget, List.count_cons_of_ne isTarget, same]
        omega

/-- The source of a cut edge loses what the edge weighs. -/
theorem Severed.cost_source {source target : Nat} (wellFormed : graph.WellFormed)
    (after : changed.WellFormed) (severed : Severed graph source target changed)
    (edge : target ∈ graph.exits source) (notJump : graph.isJump target = false) :
    changed.cost source + 2 ≤ graph.cost source := by
  have turned := severed.heft_turn wellFormed (wellFormed.isLive_of_mem_exits edge) notJump
    (wellFormed.consistent.inRange source)
  have some_edge := List.count_pos_iff.mpr (mem_exits.mp edge).1
  rw [after.cost_eq, wellFormed.cost_eq, severed.successors_eq, if_pos rfl]
  omega

theorem Severed.cost_old {source target w : Nat} (wellFormed : graph.WellFormed)
    (after : changed.WellFormed) (severed : Severed graph source target changed)
    (notSource : w ≠ source) : changed.cost w = graph.cost w := by
  have same : changed.heft ((graph.successors w).map id) = graph.heft (graph.successors w) :=
    heft_map_congr fun t edge => by
      rw [id, isJump_congr (severed.table_old (wellFormed.consistent.inRange w t edge))]
  rw [after.cost_eq, wellFormed.cost_eq, severed.successors_eq, if_neg notSource, ← same,
    List.map_id]

/-- Cutting an edge to a region that is no jump lowers the weight. -/
theorem Severed.weight_lt {source target : Nat} (wellFormed : graph.WellFormed)
    (severed : Severed graph source target changed) (sourceLive : graph.isLive source = true)
    (edge : target ∈ graph.exits source) (notJump : graph.isJump target = false) :
    changed.weight < graph.weight := by
  have after := severed.keeps_wellFormed wellFormed sourceLive
    (wellFormed.isLive_of_mem_exits edge)
  have jumpCost : changed.cost graph.size = 1 := by
    rw [after.cost_eq, severed.successors_new, heft_nil]
  have sourceCost := severed.cost_source wellFormed after edge notJump
  have oldCost {w : Nat} (member : w ∈ graph.liveSet \ {source}) :
      changed.cost w = graph.cost w :=
    severed.cost_old wellFormed after (by simpa using (Finset.mem_sdiff.mp member).2)
  have liveEq : changed.liveSet = insert graph.size graph.liveSet := by
    ext w
    rw [mem_liveSet, severed.live_iff, Finset.mem_insert, mem_liveSet]
  have fresh : graph.size ∉ graph.liveSet := fun member =>
    Nat.lt_irrefl _ (Digraph.lt_size_of_isLive (mem_liveSet.mp member))
  have taken : {source} ⊆ graph.liveSet := by simpa [mem_liveSet] using sourceLive
  rw [weight_eq_sum changed, liveEq, Finset.sum_insert fresh, ← Finset.sum_sdiff taken,
    Finset.sum_congr rfl fun w member => oldCost member, weight_eq_add taken, jumpCost,
    Finset.sum_singleton, Finset.sum_singleton]
  omega

/-- Detaching live regions lowers the weight. -/
theorem Pruned.weight_lt {regions : List Nat} (wellFormed : graph.WellFormed)
    (after : changed.WellFormed) (pruned : Pruned graph regions changed)
    (live : ∀ r ∈ regions, graph.isLive r = true) (some_region : regions ≠ []) :
    changed.weight < graph.weight := by
  obtain ⟨r, isRegion⟩ := List.exists_mem_of_ne_nil _ some_region
  have liveEq : changed.liveSet = graph.liveSet \ regions.toFinset := by
    ext w
    rw [mem_liveSet, pruned.live_iff, Finset.mem_sdiff, mem_liveSet, List.mem_toFinset]
  have taken : regions.toFinset ⊆ graph.liveSet := fun w member =>
    mem_liveSet.mpr (live w (List.mem_toFinset.mp member))
  have lighter : ∀ w ∈ graph.liveSet \ regions.toFinset, changed.cost w ≤ graph.cost w := by
    intro w member
    have outside : w ∉ regions := by simpa using (Finset.mem_sdiff.mp member).2
    have sameHeft (targets : List Nat) : changed.heft targets = graph.heft targets := by
      simp only [heft, isJump_congr (pruned.table_eq _)]
    have le : graph.heft ((graph.successors w).filter fun t => decide (t ∉ regions)) ≤
        graph.heft (graph.successors w) := List.Sublist.countP_le List.filter_sublist
    rw [after.cost_eq, wellFormed.cost_eq, pruned.successors_eq, if_neg outside, sameHeft]
    omega
  have removed : 0 < ∑ w ∈ regions.toFinset, graph.cost w :=
    Finset.sum_pos (fun w _ => one_le_cost graph w) ⟨r, List.mem_toFinset.mpr isRegion⟩
  rw [weight_eq_sum changed, liveEq, weight_eq_add taken]
  have := Finset.sum_le_sum lighter
  omega

end RegionGraph

end FlowRegions
