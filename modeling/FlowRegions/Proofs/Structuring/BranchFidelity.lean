import FlowRegions.Proofs.Structuring.Rootless

/-!
Contract: the branches of every region of a run, read against the input.

`Faithful` says that testing a folded condition leads where the branches of the
region start.  Here it is read as an execution: following the edges of the input
from the last leaf of a region, through the vertices that its condition tests and
no further than short-circuit evaluation goes.

Owns:
- `Cond.follow?`, following edges while a condition is tested;
- `Structuring.branches_follow_input`, that the branches of a region lead where
  the input leads, in every state of a run.
-/

namespace FlowRegions

open FlowRegions.Digraph (root terminator)

/-! ## Following a condition -/

namespace Cond

/-- Tests a condition from a place on, left to right and no further than needed:
whether it holds and where the edges that were taken lead.  A vertex is tested
where the walk is, or not at all. -/
def follow? (targets : Nat → List Nat) (decision : Nat → Nat) : Cond → Nat → Option (Bool × Nat)
  | test vertex, place =>
    if place = vertex then
      ((targets vertex)[decision vertex]?).map fun next => (decision vertex == 0, next)
    else none
  | not operand, place =>
    (operand.follow? targets decision place).map fun (holds, next) => (!holds, next)
  | and left right, place =>
    (left.follow? targets decision place).bind fun (holds, next) =>
      if holds then right.follow? targets decision next else some (false, next)
  | or left right, place =>
    (left.follow? targets decision place).bind fun (holds, next) =>
      if holds then some (true, next) else right.follow? targets decision next

/-- Where a condition leads, whatever is decided at the vertices it tests. -/
theorem Leads.follow?_eq {targets : Nat → List Nat} {condition : Cond} {whenTrue whenFalse : Nat}
    (leads : Leads targets condition whenTrue whenFalse) {decision : Nat → Nat}
    (decided : ∀ v ∈ condition.vertices, decision v < (targets v).length) :
    condition.follow? targets decision condition.first =
      some (condition.eval (decision · == 0),
        if condition.eval (decision · == 0) then whenTrue else whenFalse) := by
  induction leads with
  | @test vertex whenTrue whenFalse branch =>
      have below := decided vertex (by simp [vertices])
      rw [branch] at below
      show (if vertex = vertex then _ else _) = _
      rw [if_pos rfl, branch]
      show _ = some (decision vertex == 0, if decision vertex == 0 then whenTrue else whenFalse)
      have either : decision vertex = 0 ∨ decision vertex = 1 := by
        simp only [List.length_cons, List.length_nil] at below
        omega
      rcases either with isZero | isOne
      · rw [isZero]
        rfl
      · rw [isOne]
        rfl
  | @not operand whenTrue whenFalse inner inductionHypothesis =>
      show (operand.follow? targets decision operand.first).map _ =
        some (!operand.eval (decision · == 0),
          if !operand.eval (decision · == 0) then whenTrue else whenFalse)
      rw [inductionHypothesis decided, Option.map_some]
      cases operand.eval (decision · == 0) <;> rfl
  | @and left right whenTrue whenFalse before behind leftHypothesis rightHypothesis =>
      have left_eq := leftHypothesis fun v member => decided v (List.mem_append_left _ member)
      have right_eq := rightHypothesis fun v member => decided v (List.mem_append_right _ member)
      show (left.follow? targets decision left.first).bind _ =
        some (left.eval (decision · == 0) && right.eval (decision · == 0),
          if left.eval (decision · == 0) && right.eval (decision · == 0) then whenTrue
          else whenFalse)
      rw [left_eq, Option.bind_some]
      cases left.eval (decision · == 0) with
      | true => exact right_eq
      | false => rfl
  | @or left right whenTrue whenFalse before behind leftHypothesis rightHypothesis =>
      have left_eq := leftHypothesis fun v member => decided v (List.mem_append_left _ member)
      have right_eq := rightHypothesis fun v member => decided v (List.mem_append_right _ member)
      show (left.follow? targets decision left.first).bind _ =
        some (left.eval (decision · == 0) || right.eval (decision · == 0),
          if left.eval (decision · == 0) || right.eval (decision · == 0) then whenTrue
          else whenFalse)
      rw [left_eq, Option.bind_some]
      cases left.eval (decision · == 0) with
      | true => rfl
      | false => exact right_eq

end Cond

/-! ## Faithful regions -/

section Faithful

variable {config : Config} {targets : Nat → List Nat} {graph : RegionGraph} {r last : Nat}

/-- A region that tests its last leaf branches where the leaf does. -/
theorem RegionGraph.Ending.firsts_of_test (ending : Ending config targets graph r)
    (isLast : graph.branchingVertex? r = some last)
    (isCond : graph.branchCond? r = some (.test last)) :
    (graph.branches r).map graph.firstVertex? = (targets last).map some := by
  cases ending with
  | plain isVertex _ firsts =>
      rw [isLast] at isVertex
      rw [firsts, Option.some.inj isVertex]
  | folded _ isFolded _ branches _ first_a first_b leads _ =>
      rw [isCond] at isFolded
      cases isFolded
      cases leads with
      | test branch =>
          rw [branches, branch, List.map_cons, List.map_cons, first_a, first_b]
          rfl
  | closed noVertex _ _ =>
      rw [isLast] at noVertex
      cases noVertex

/-- A region that tests another condition has two branches, and following the
condition from its last leaf leads where they start. -/
theorem RegionGraph.Ending.follow?_eq {cond : Cond} (ending : Ending config targets graph r)
    (isLast : graph.branchingVertex? r = some last) (isCond : graph.branchCond? r = some cond)
    (isFolded : cond ≠ .test last) :
    ∃ x₀ x₁ w₀ w₁, graph.branches r = [x₀, x₁] ∧ x₀ ≠ x₁ ∧
      graph.firstVertex? x₀ = some w₀ ∧ graph.firstVertex? x₁ = some w₁ ∧
      ∀ decision : Nat → Nat, (∀ v ∈ cond.vertices, decision v < (targets v).length) →
        cond.follow? targets decision last =
          some (cond.eval (decision · == 0), if cond.eval (decision · == 0) then w₀ else w₁) := by
  cases ending with
  | plain isVertex isTest _ =>
      rw [isLast] at isVertex
      rw [isCond, ← Option.some.inj isVertex] at isTest
      exact absurd (Option.some.inj isTest) isFolded
  | @folded _ a b whenTrue whenFalse _ isVertex isCond' isFirst branches distinct first_a first_b
      leads _ =>
      rw [isCond] at isCond'
      cases isCond'
      rw [isLast] at isVertex
      cases isVertex
      refine ⟨a, b, whenTrue, whenFalse, branches, distinct, first_a, first_b, ?_⟩
      intro decision decided
      rw [← isFirst]
      exact leads.follow?_eq decided
  | closed noVertex _ _ =>
      rw [isLast] at noVertex
      cases noVertex

/-- A region with a last leaf tests a condition. -/
theorem RegionGraph.Ending.exists_cond (ending : Ending config targets graph r)
    (isLast : graph.branchingVertex? r = some last) : ∃ cond, graph.branchCond? r = some cond := by
  cases ending with
  | plain _ isCond _ => exact ⟨_, isCond⟩
  | folded _ isCond _ _ _ _ _ _ _ => exact ⟨_, isCond⟩
  | closed noVertex _ _ =>
      rw [isLast] at noVertex
      cases noVertex

end Faithful

/-! ## Runs -/

namespace Structuring

variable {α : Type} {config : Config} {input : Digraph α} {structuring : Structuring}

/-- The live regions of every state of a run are faithful to the input, also
where the root leads nowhere. -/
theorem ending_of_reached (joined : RegionGraph.Joined input)
    (accepted : Structuring.ofGraph config input = .ok structuring) (targets : Nat → List Nat)
    (same : ∀ v, 2 ≤ v → targets v = (input.successors v).filter (· != terminator))
    {state : State} (reached : State.Reached config structuring.state state) {r : Nat}
    (live : state.graph.isLive r = true) : RegionGraph.Ending config targets state.graph r := by
  rcases cases_ofGraph joined accepted with sound | ⟨rootless, entry, taken⟩
  · obtain ⟨_, _, _, _, ⟨entry, _, taken⟩, proper⟩ := proper_ofGraph sound accepted
    have start : State.Proper config targets structuring.state :=
      ⟨proper.wellFormed, taken.faithful joined.consistent same, proper.bounded⟩
    exact (start.reached reached).faithful.ending live
  · rcases (rootless.reached reached).2 with rfl | noLive
    · exact (taken.faithful joined.consistent same).ending live
    · rw [noLive r] at live
      cases live

/-- The branches of a region mean what the edges of the input mean, in every state
of a run from an accepted graph whose edges join vertices that are not detached.
Where a region tests its last leaf, its branches start at the targets of that leaf,
position by position.  Where tests were folded, it has two branches, and following
the folded condition along the input from the last leaf leads to where the first
starts when the condition holds, and else to where the second starts. -/
theorem branches_follow_input (built : input.Built)
    (attached : ∀ {u v}, v ∈ input.successors u →
      input.isDetached u = false ∧ input.isDetached v = false)
    (accepted : Structuring.ofGraph config input = .ok structuring)
    {state : State} (reached : State.Reached config structuring.state state) {r last : Nat}
    (live : state.graph.isLive r = true) (isLast : state.graph.branchingVertex? r = some last) :
    ∃ cond, state.graph.branchCond? r = some cond ∧
      (cond = .test last → (state.graph.branches r).map state.graph.firstVertex? =
        ((input.successors last).filter (· != terminator)).map some) ∧
      (cond ≠ .test last → ∃ x₀ x₁ w₀ w₁, state.graph.branches r = [x₀, x₁] ∧ x₀ ≠ x₁ ∧
        state.graph.firstVertex? x₀ = some w₀ ∧ state.graph.firstVertex? x₁ = some w₁ ∧
        ∀ decision : Nat → Nat,
          (∀ v ∈ cond.vertices,
            decision v < ((input.successors v).filter (· != terminator)).length) →
          cond.follow? (fun v => (input.successors v).filter (· != terminator)) decision last =
            some (cond.eval (decision · == 0),
              if cond.eval (decision · == 0) then w₀ else w₁)) := by
  have ending := ending_of_reached ⟨built.consistent, attached⟩ accepted
    (fun v => (input.successors v).filter (· != terminator)) (fun _ _ => rfl) reached live
  obtain ⟨cond, isCond⟩ := ending.exists_cond isLast
  refine ⟨cond, isCond, fun isTest => ?_, fun isFolded => ?_⟩
  · rw [isTest] at isCond
    exact ending.firsts_of_test isLast isCond
  · exact ending.follow?_eq isLast isCond isFolded

def guarded : Digraph Unit :=
  Digraph.ofEdges 4 [(0, 2), (2, 3), (2, 5), (3, 4), (3, 5), (4, 5), (5, 1)]

/-- The second test is folded into the first, and both have to hold to come to the
guarded vertex. -/
theorem branches_follow_input_guarded :
    ∃ structuring state, Structuring.ofGraph { onlyTests := (· == 3) } guarded = .ok structuring ∧
      State.Reached { onlyTests := (· == 3) } structuring.state state ∧
      state.graph.branchCond? 6 = some (.and (.test 2) (.test 3)) ∧
      state.graph.branches 6 = [4, 5] ∧
      ∀ decision : Nat → Nat, decision 2 < 2 → decision 3 < 2 →
        (Cond.and (.test 2) (.test 3)).follow?
            (fun v => (guarded.successors v).filter (· != terminator)) decision 2 =
          some (decision 2 == 0 && decision 3 == 0,
            if decision 2 == 0 && decision 3 == 0 then 4 else 5) := by
  have built : guarded.Built := Digraph.built_ofEdges (by decide)
  have folds : ((Structuring.ofGraph { onlyTests := (· == 3) } guarded).toOption.bind
      fun structuring => (structuring.state.choose { onlyTests := (· == 3) }).bind fun action =>
        let graph := (structuring.state.perform action).1.graph
        if structuring.state.finish?.isNone ∧ graph.isLive 6 ∧ graph.branchingVertex? 6 = some 2 ∧
          graph.branchCond? 6 = some (.and (.test 2) (.test 3)) ∧ graph.branches 6 = [4, 5] ∧
          graph.firstVertex? 4 = some 4 ∧ graph.firstVertex? 5 = some 5 then some () else none) =
      some () := by
    decide +kernel
  cases accepted : Structuring.ofGraph { onlyTests := (· == 3) } guarded with
  | error rejected =>
      rw [accepted] at folds
      cases folds
  | ok structuring =>
      rw [accepted] at folds
      change (structuring.state.choose { onlyTests := (· == 3) }).bind _ = some () at folds
      obtain ⟨action, chosen, holds⟩ := Option.bind_eq_some_iff.mp folds
      obtain ⟨unfinished, live, isLast, isCond, branches, first, second⟩ :=
        (Option.ite_none_right_eq_some.mp holds).1
      rw [Option.isNone_iff_eq_none] at unfinished
      have reached : State.Reached { onlyTests := (· == 3) } structuring.state
          (structuring.state.perform action).1 := .single ⟨unfinished, action, chosen, rfl⟩
      obtain ⟨cond, sameCond, _, folded⟩ := branches_follow_input built
        (RegionGraph.attached_of_lt (by decide +kernel)) accepted reached live isLast
      rw [isCond] at sameCond
      cases sameCond
      obtain ⟨x₀, x₁, w₀, w₁, sameBranches, _, isFirst, isSecond, follows⟩ :=
        folded (by decide)
      rw [branches] at sameBranches
      cases sameBranches
      rw [first] at isFirst
      rw [second] at isSecond
      cases isFirst
      cases isSecond
      refine ⟨structuring, _, rfl, reached, isCond, branches, fun decision below₂ below₃ => ?_⟩
      apply follows
      intro v member
      rcases List.mem_pair.mp member with rfl | rfl
      · exact below₂
      · exact below₃

end Structuring

end FlowRegions
