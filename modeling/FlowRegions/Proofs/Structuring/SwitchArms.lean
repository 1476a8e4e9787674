import FlowRegions.Proofs.Execution.Structured
import FlowRegions.Proofs.Structuring.Reducible
import Mathlib.Data.List.Nodup

/-!
Contract: the arms of a switch share out the branch that selects them.

A switch is built from the branches that a region has at that moment.  Branches
may have been cut or copied by then, but position by position they still start
where the input leads, so that grouping positions by branch never groups targets
that differ.

Owns:
- `Arm.ShareOut`, what the arms of a switch have to do with the targets of the
  vertex that ends its head;
- `RegionGraph.AllShareOut`, that the arms of every switch ever made do this, with
  its step and run lemmas;
- `Routine.structured_arms_share_out`, for every tree of a routine.
-/

namespace FlowRegions

open FlowRegions.Digraph (root terminator)

/-! ## Arms of one branch -/

/-- Arms that share out the positions of a branch with the given targets.  `first`
tells at which vertex a region starts. -/
structure Arm.ShareOut (targets : List Nat) (first : Nat → Option Nat) (arms : List (Arm Nat)) :
    Prop where
  taken : ∀ arm ∈ arms, arm.edges ≠ []
  ascending : ∀ arm ∈ arms, arm.edges.Pairwise (· < ·)
  /-- Every position of the branch selects one arm. -/
  once : (arms.flatMap Arm.edges).Perm (List.range targets.length)
  /-- Positions share an arm only when their targets are equal. -/
  alike : ∀ arm ∈ arms, ∀ p ∈ arm.edges, ∀ q ∈ arm.edges, targets[p]? = targets[q]?
  /-- An arm that is not empty starts at the target of each of its positions. -/
  lands : ∀ arm ∈ arms, ∀ body, arm.body = some body → ∀ p ∈ arm.edges, ∃ target,
    targets[p]? = some target ∧ first body = some target
  oneEmpty : arms.countP (fun arm => arm.body.isNone) ≤ 1
  distinct : (arms.filterMap Arm.body).Nodup

namespace RegionGraph

theorem pairwise_positionsOf (branches : List Nat) (d : Nat) :
    (positionsOf branches d).Pairwise (· < ·) := by
  have sublist : (positionsOf branches d).Sublist (List.range branches.length) := by
    rw [List.range_eq_range', ← List.zipIdx_map_snd 0 branches]
    exact List.filter_sublist.map _
  exact List.pairwise_lt_range.sublist sublist

/-- The positions of the distinct branches are all the positions there are. -/
theorem perm_flatMap_positionsOf (branches : List Nat) :
    (branches.eraseDups.flatMap (positionsOf branches)).Perm (List.range branches.length) := by
  refine (List.perm_ext_iff_of_nodup ?_ List.nodup_range).mpr fun p => ?_
  · refine List.nodup_flatMap.mpr ⟨fun d _ => ?_, ?_⟩
    · exact (pairwise_positionsOf branches d).imp Nat.ne_of_lt
    · refine (nodup_eraseDups branches).imp fun {d e} different p inFirst inSecond => ?_
      rw [mem_positionsOf] at inFirst inSecond
      exact different (Option.some.inj (inFirst.symm.trans inSecond))
  · simp only [List.mem_flatMap, List.mem_eraseDups, mem_positionsOf, List.mem_range]
    constructor
    · rintro ⟨d, _, isBranch⟩
      exact (List.getElem?_eq_some_iff.mp isBranch).1
    · intro within
      exact ⟨branches[p], List.getElem_mem within, List.getElem?_eq_getElem within⟩

/-- The arm of a branch; the one where arms meet is empty. -/
def armOf (branches : List Nat) (follow : Option Nat) (d : Nat) : Arm Nat where
  edges := positionsOf branches d
  body := if follow = some d then none else some d

theorem body_armOf {branches : List Nat} {follow : Option Nat} {d body : Nat}
    (isBody : (armOf branches follow d).body = some body) : body = d := by
  unfold armOf at isBody
  dsimp only at isBody
  split at isBody
  · cases isBody
  · exact (Option.some.inj isBody).symm

/-- Distinct branches have arms of their own, and only one can be where arms
meet. -/
theorem countP_empty_armOf_le (branches : List Nat) (follow : Option Nat) {items : List Nat}
    (distinct : items.Nodup) :
    (items.map (armOf branches follow)).countP (fun arm => arm.body.isNone) ≤ 1 := by
  rw [List.countP_map]
  cases follow with
  | none => simp [Function.comp_def, armOf]
  | some place =>
      have empty : ((fun arm : Arm Nat => arm.body.isNone) ∘ armOf branches (some place)) =
          fun d => d == place := by
        funext d
        by_cases same : d = place
        · simp [armOf, same]
        · simp [armOf, same, Ne.symm same]
      rw [empty]
      exact List.nodup_iff_count_le_one.mp distinct place

theorem nodup_bodies_armOf (branches : List Nat) (follow : Option Nat) {items : List Nat}
    (distinct : items.Nodup) :
    ((items.map (armOf branches follow)).filterMap Arm.body).Nodup := by
  rw [List.filterMap_map]
  refine distinct.filterMap fun d e body isBody isBody' => ?_
  exact (body_armOf isBody).symm.trans (body_armOf isBody')

/-- Grouping the positions of branches by where they lead shares them out, whatever
the branches stand for. -/
theorem shareOut_arms {branches targets : List Nat} {first : Nat → Option Nat}
    (firsts : branches.map first = targets.map some) (follow : Option Nat) :
    Arm.ShareOut targets first (branches.eraseDups.map (armOf branches follow)) := by
  have sameLength : branches.length = targets.length := by
    simpa using congrArg List.length firsts
  have lands {p d : Nat} (isBranch : branches[p]? = some d) :
      ∃ target, targets[p]? = some target ∧ first d = some target := by
    have here := congrArg (·[p]?) firsts
    simp only [List.getElem?_map, isBranch, Option.map_some] at here
    obtain ⟨target, isTarget, same⟩ := Option.map_eq_some_iff.mp here.symm
    exact ⟨target, isTarget, same.symm⟩
  refine
    { taken := ?_, ascending := ?_, once := ?_, alike := ?_, lands := ?_
      oneEmpty := countP_empty_armOf_le branches follow (nodup_eraseDups branches)
      distinct := nodup_bodies_armOf branches follow (nodup_eraseDups branches) }
  · rw [List.forall_mem_map]
    intro d isTarget
    obtain ⟨p, isBranch⟩ := List.getElem?_of_mem (List.mem_eraseDups.mp isTarget)
    exact List.ne_nil_of_mem (mem_positionsOf.mpr isBranch)
  · rw [List.forall_mem_map]
    exact fun d _ => pairwise_positionsOf branches d
  · rw [List.flatMap_map, ← sameLength]
    exact perm_flatMap_positionsOf branches
  · rw [List.forall_mem_map]
    intro d _ p atP q atQ
    obtain ⟨target, isTarget, isFirst⟩ := lands (mem_positionsOf.mp atP)
    obtain ⟨target', isTarget', isFirst'⟩ := lands (mem_positionsOf.mp atQ)
    rw [isTarget, isTarget', ← isFirst, ← isFirst']
  · rw [List.forall_mem_map]
    intro d _ body isBody p atP
    rw [body_armOf isBody]
    exact lands (mem_positionsOf.mp atP)

end RegionGraph

/-! ## Every switch of a run -/

namespace RegionGraph

variable {config : Config} {targets : Nat → List Nat} {graph changed : RegionGraph} {head : Nat}
  {arms : List (Arm Nat)}

/-- The arms of a switch share out the branch of the vertex that ends its head, and
that vertex has targets. -/
def SharesOut (targets : Nat → List Nat) (graph : RegionGraph) (head : Nat)
    (arms : List (Arm Nat)) : Prop :=
  ∃ vertex, graph.branchingVertex? head = some vertex ∧ targets vertex ≠ [] ∧
    Arm.ShareOut (targets vertex) graph.firstVertex? arms

def AllShareOut (targets : Nat → List Nat) (graph : RegionGraph) : Prop :=
  ∀ i head arms cond, graph.table i = some ⟨.switch head arms, cond⟩ →
    graph.SharesOut targets head arms

/-- Regions end and start as they did when the table was shorter. -/
theorem SharesOut.grown (shares : graph.SharesOut targets head arms)
    (growth : Extends graph changed) (nested : graph.table.Nested) (within : head < graph.size) :
    changed.SharesOut targets head arms := by
  obtain ⟨vertex, isVertex, someTarget, shareOut⟩ := shares
  refine ⟨vertex, (growth.branchingVertex?_eq nested within).trans isVertex, someTarget,
    { shareOut with lands := fun arm isArm body isBody p atP => ?_ }⟩
  obtain ⟨target, isTarget, first⟩ := shareOut.lands arm isArm body isBody p atP
  exact ⟨target, isTarget,
    (growth.firstVertex?_eq nested (lt_size_of_firstVertex? first)).trans first⟩

/-- The switch that a rule makes shares out the branches that the rule found. -/
theorem Matches.sharesOut {labels : List Nat} {v : Nat} {collapse : Collapse}
    {cond : Option Cond} (faithful : Faithful config targets graph)
    (live : graph.isLive v = true) (found : Matches config labels graph v collapse)
    (isSwitch : collapse.node = ⟨.switch head arms, cond⟩) :
    head = v ∧ graph.SharesOut targets head arms := by
  cases found with
  | @switch follow _ _ switching =>
      cases isSwitch
      obtain ⟨vertex, isVertex, firsts⟩ := (faithful.ending live).plain_of_many switching.many
      refine ⟨rfl, vertex, isVertex, fun none => ?_, shareOut_arms firsts follow⟩
      rw [none, List.map_nil, List.map_eq_nil_iff, ← exits_eq_nil_iff] at firsts
      exact switching.some_exit firsts
  | compound foldable =>
      -- Folding keeps the shape of a leaf or a sequence.
      have kind := foldable.head_kind
      rw [Node.kind, show _ = Shape.switch head arms from congrArg Node.shape isSwitch] at kind
      simp [Shape.kind] at kind
  | _ => cases isSwitch

end RegionGraph

/-- A legal step makes no switch but those that share out their branch. -/
theorem State.Legal.keeps_allShareOut {config : Config} {targets : Nat → List Nat} {state : State}
    {action : Action} (wellFormed : state.graph.WellFormed)
    (faithful : RegionGraph.Faithful config targets state.graph)
    (allShareOut : state.graph.AllShareOut targets) (legal : Legal config state action) :
    (state.perform action).1.graph.AllShareOut targets := by
  intro i head arms cond found
  have keeps {changed : RegionGraph} (growth : RegionGraph.Extends state.graph changed)
      (old : state.graph.table i = some ⟨.switch head arms, cond⟩) :
      changed.SharesOut targets head arms := by
    have earlier := wellFormed.nested.below old head List.mem_cons_self
    exact (allShareOut i head arms cond old).grown growth wellFormed.nested
      (Nat.lt_trans earlier (RegionGraph.lt_size_of_table old))
  cases legal with
  | @prune regions =>
      have pruned := RegionGraph.pruned_isolateAll wellFormed.consistent regions
      exact keeps pruned.growth ((pruned.table_eq i).symm.trans found)
  | collapse _ live isMatch =>
      have fits := isMatch.fits wellFormed live
      have collapsed := RegionGraph.collapsed_collapse wellFormed fits
      rcases collapsed.table_cases found with ⟨_, old⟩ | ⟨_, _, isPart⟩ | ⟨_, isNode⟩
      · exact keeps collapsed.growth old
      · obtain ⟨nodes, isSeq, _⟩ := fits.part_shape _ isPart
        cases isSeq
      · obtain ⟨rfl, shares⟩ := isMatch.sharesOut faithful live isNode.symm
        exact shares.grown collapsed.growth wellFormed.nested (Digraph.lt_size_of_isLive live)
  | duplicate _ _ live entering =>
      have copied := RegionGraph.copied_giveCopy wellFormed.consistent
        (Digraph.lt_size_of_isLive live) entering
      rcases copied.table_cases found with ⟨_, old⟩ | ⟨_, isTail⟩ | ⟨_, _, _, _, _, isJump⟩
      · exact keeps copied.growth old
      · cases isTail
      · cases isJump
  | @cut source target =>
      have severed := RegionGraph.severed_redirect wellFormed.consistent source target
      rcases severed.table_cases found with ⟨_, old⟩ | ⟨_, isJump⟩
      · exact keeps severed.growth old
      · cases isJump

theorem State.Proper.allShareOut {config : Config} {targets : Nat → List Nat}
    {start state : State} (proper : Proper config targets start)
    (allShareOut : start.graph.AllShareOut targets) (reached : Reached config start state) :
    state.graph.AllShareOut targets := by
  induction reached with
  | refl => exact allShareOut
  | tail before steps inductionHypothesis =>
      obtain ⟨_, action, chosen, rfl⟩ := steps
      have here := proper.reached before
      exact (legal_of_choose here.wellFormed chosen).keeps_allShareOut here.wellFormed
        here.faithful inductionHypothesis

/-! ## Trees -/

/-- A vertex that branches has no edges but its branches. -/
theorem RegionGraph.Taken.successors_of_target {α : Type} {input : Digraph α} {entry v : Nat}
    {graph : RegionGraph} (taken : Taken input entry input.size graph)
    (branches : inputTargets input v ≠ []) : input.successors v = inputTargets input v := by
  obtain ⟨real, sameLength⟩ := taken.length_successors_of_target branches
  unfold inputTargets at sameLength ⊢
  rw [if_pos real] at sameLength ⊢
  exact (List.filter_sublist.eq_of_length sameLength.symm).symm

/-- In the tree that a run comes to, the arms of every switch share out the edges that
leave the vertex that ends its head. -/
theorem Structuring.shareOut_of_run {α : Type} {config : Config} {input : Digraph α}
    {structuring : Structuring} (sound : RegionGraph.Sound input)
    (accepted : Structuring.ofGraph config input = .ok structuring) {tree : Tree}
    (result : structuring.run.2.2 = .ok tree) {i head : Nat} {arms : List (Arm Nat)}
    {cond : Option Cond} (isSwitch : tree.table i = some ⟨.switch head arms, cond⟩) :
    ∃ vertex, tree.table.branchingVertex? tree.nodes.size head = some vertex ∧
      Arm.ShareOut (input.successors vertex) (tree.table.firstVertex? tree.nodes.size) arms := by
  obtain ⟨_, _, _, _, ⟨entry, _, taken⟩, proper⟩ := proper_ofGraph sound accepted
  obtain ⟨final, top, reached, _, rfl⟩ := exists_final sound accepted result
  have start : structuring.state.graph.AllShareOut (RegionGraph.inputTargets input) := by
    intro i head arms cond found
    cases taken.node_eq found
  rw [State.table_tree] at isSwitch ⊢
  rw [State.size_tree]
  obtain ⟨vertex, isVertex, someTarget, shareOut⟩ :=
    proper.allShareOut start reached i head arms cond isSwitch
  rw [← taken.successors_of_target someTarget] at shareOut
  exact ⟨vertex, isVertex, shareOut⟩

namespace Routine

variable {σ ε : Type} {routine : Routine σ ε}

/-- The arms of a switch cover its branch: whatever the configuration, in the table of
the tree of a valid routine the arms of every switch share out the edges of the vertex
that ends its head. -/
theorem structured_arms_share_out (valid : routine.fault? = none) (adjust : Config → Config)
    {tree : Tree} (structured : (routine.structured adjust).2 = .ok tree) {i head : Nat}
    {arms : List (Arm Nat)} {cond : Option Cond}
    (isSwitch : tree.table i = some ⟨.switch head arms, cond⟩) :
    ∃ vertex, tree.table.branchingVertex? tree.nodes.size head = some vertex ∧
      Arm.ShareOut (routine.flow.successors vertex) (tree.table.firstVertex? tree.nodes.size)
        arms := by
  obtain ⟨start, accepted, result⟩ := exists_run_of_structured valid structured
  exact Structuring.shareOut_of_run (sound_flow valid) accepted result isSwitch

def repeatedTargets : Routine Unit Unit where
  name := "repeated targets"
  entry := 0
  blocks := #[
    some { statements := [()], condition := some (), targets := [1, 2, 1, 3, 2], cases := none },
    some { statements := [], condition := none, targets := [3], cases := none },
    some { statements := [()], condition := some (), targets := [0, 3], cases := none },
    some { statements := [], condition := none, targets := [], cases := none }]

/-- One arm is the rest of the loop, cut loose from it; the arm of the position that
leaves is empty. -/
theorem structured_arms_share_out_repeatedTargets :
    ∃ tree, (repeatedTargets.structured id).2 = .ok tree ∧
      tree.table 10 =
        some ⟨.switch 2 [⟨[0, 2], some 3⟩, ⟨[1, 4], some 9⟩, ⟨[3], none⟩], none⟩ ∧
      repeatedTargets.flow.successors 2 = [3, 4, 3, 5, 4] ∧
      ∃ vertex, tree.table.branchingVertex? tree.nodes.size 2 = some vertex ∧
        Arm.ShareOut (repeatedTargets.flow.successors vertex)
          (tree.table.firstVertex? tree.nodes.size)
          [⟨[0, 2], some 3⟩, ⟨[1, 4], some 9⟩, ⟨[3], none⟩] := by
  have valid : repeatedTargets.fault? = none := by decide
  have switches : ((repeatedTargets.structured id).2.toOption.bind fun tree => tree.table 10) =
      some ⟨.switch 2 [⟨[0, 2], some 3⟩, ⟨[1, 4], some 9⟩, ⟨[3], none⟩], none⟩ := by
    decide +kernel
  cases structured : (repeatedTargets.structured id).2 with
  | error fault =>
      rw [structured] at switches
      cases switches
  | ok tree =>
      rw [structured] at switches
      exact ⟨tree, rfl, switches, by decide +kernel,
        structured_arms_share_out valid id structured switches⟩

end Routine

end FlowRegions
