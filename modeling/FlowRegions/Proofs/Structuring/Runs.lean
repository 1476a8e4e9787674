import FlowRegions.Proofs.Structuring.Completeness
import FlowRegions.Proofs.Structuring.Composite

/-!
Contract: what runs keep, and how they end.

Owns:
- `State.Steps` and `State.Reached`, the steps a run takes and the states it
  passes through;
- `State.Proper`, the invariant of runs, and `State.Proper.progress`, what the
  next step of a proper state does;
- `State.Verdict`: a run ends with a tree, unless it comes to a state that
  chooses an idle collapse.
-/

namespace FlowRegions.State

open FlowRegions.Digraph (root terminator)

variable {config : Config} {targets : Nat → List Nat} {state next later : State}

def Steps (config : Config) (state next : State) : Prop :=
  state.finish? = none ∧
    ∃ action, state.choose config = some action ∧ next = (state.perform action).1

def Reached (config : Config) (state later : State) : Prop :=
  Relation.ReflTransGen (Steps config) state later

/-- A state whose next step is an idle collapse. -/
def Idles (config : Config) (state : State) : Prop :=
  state.finish? = none ∧
    ∃ collapse, state.choose config = some (.collapse collapse) ∧ collapse.IsIdle

structure Proper (config : Config) (targets : Nat → List Nat) (state : State) : Prop where
  wellFormed : state.graph.WellFormed
  faithful : RegionGraph.Faithful config targets state.graph
  bounded : state.duplicated.length ≤ config.maxDuplications

/-! ## Trees -/

theorem table_tree (state : State) (e : Nat) : (state.tree e).table = state.graph.table := by
  funext i
  change ((state.graph.vertices.map Vertex.payload)[i]?).join = state.graph.payload? i
  rw [Array.getElem?_map]
  unfold Digraph.payload? Digraph.vertex?
  cases state.graph.vertices[i]? <;> rfl

theorem size_tree (state : State) (e : Nat) : (state.tree e).nodes.size = state.graph.size :=
  Array.size_map

/-- When one region is left, it is all that is live. -/
theorem eq_of_isLive {u v : Nat} (single : state.graph.liveCount = 1)
    (live : state.graph.isLive v = true) (live' : state.graph.isLive u = true) : u = v := by
  rw [Digraph.liveCount_eq] at single
  obtain ⟨only, isOnly⟩ := List.length_eq_one_iff.mp single
  have same {u : Nat} (live : state.graph.isLive u = true) : u = only := by
    have member : u ∈ state.graph.liveIndices := (Digraph.mem_liveIndices _ u).mpr live
    rwa [isOnly, List.mem_singleton] at member
  exact (same live').trans (same live).symm

/-! ## Steps -/

/-- A step follows from the state it leaves. -/
theorem Steps.deterministic {other : State} (first : Steps config state next)
    (second : Steps config state other) : other = next := by
  obtain ⟨_, action, chosen, rfl⟩ := first
  obtain ⟨_, action', chosen', rfl⟩ := second
  rw [chosen] at chosen'
  cases chosen'
  rfl

theorem Reached.cases_steps (reached : Reached config state later)
    (steps : Steps config state next) : later = state ∨ Reached config next later := by
  rcases reached.cases_head with same | ⟨other, first, rest⟩
  · exact .inl same.symm
  · exact .inr (steps.deterministic first ▸ rest)

namespace Proper

variable (proper : Proper config targets state)
include proper

theorem step (steps : Steps config state next) : Proper config targets next := by
  obtain ⟨_, action, chosen, rfl⟩ := steps
  have legal := legal_of_choose proper.wellFormed chosen
  refine ⟨legal.keeps_wellFormed proper.wellFormed,
    legal.keeps_faithful proper.wellFormed proper.faithful, ?_⟩
  cases legal with
  | @duplicate region source entrant outside all few =>
      have performed : (state.perform (.duplicate region outside)).1.duplicated =
        state.duplicated ++ [region] := rfl
      rw [performed, List.length_append]
      exact few
  | _ => exact proper.bounded

theorem reached (reached : Reached config state later) : Proper config targets later := by
  induction reached with
  | refl => exact proper
  | tail _ steps inductionHypothesis => exact inductionHypothesis.step steps

/-- A run ends in a proper state with a tree. -/
theorem finish?_eq {result : Except RunError Tree} (finished : state.finish? = some result) :
    ∃ entry, result = .ok (state.tree entry) ∧ state.graph.entry? = some entry ∧
      state.graph.liveCount = 1 ∧ state.graph.branches entry = [] := by
  obtain ⟨entry, isEntry, _⟩ := proper.wellFormed.entry?_eq
  unfold finish? at finished
  rw [isEntry] at finished
  split at finished
  · cases finished
  rename_i single
  dsimp only at finished
  split at finished
  · rename_i noBranch
    cases finished
    exact ⟨entry, rfl, isEntry, by simpa using single, List.isEmpty_iff.mp noBranch⟩
  · cases finished

/-- The region at the top of the tree is all that is live. -/
theorem isLive_iff_of_finish? {entry : Nat}
    (finished : state.finish? = some (.ok (state.tree entry))) :
    state.graph.successors root = [entry] ∧ ∀ v, state.graph.isLive v = true ↔ v = entry := by
  obtain ⟨e, isTree, isEntry, single, _⟩ := proper.finish?_eq finished
  obtain ⟨e', isEntry', edges, live, _⟩ := proper.wellFormed.entry?_eq
  have same : e' = entry := by
    rw [isEntry] at isEntry'
    exact (Option.some.inj isEntry').symm.trans (congrArg Tree.root (Except.ok.inj isTree)).symm
  rw [same] at edges live
  exact ⟨edges, fun v => ⟨eq_of_isLive single live, fun isEntry => isEntry ▸ live⟩⟩

/-- Where a run ends, everything live is reached: it is the one region that the root
leads to. -/
theorem allReached_of_finish? {entry : Nat}
    (finished : state.finish? = some (.ok (state.tree entry))) : state.graph.AllReached := by
  obtain ⟨edges, only⟩ := proper.isLive_iff_of_finish? finished
  intro v isLive
  rw [(only v).mp isLive]
  refine (Digraph.Reaches.refl root).edge ?_
  show entry ∈ state.graph.successors root
  rw [edges]
  exact List.mem_singleton_self entry

/-- A state that is not finished takes a step: a duplication, of which few
enough are left, a step that lowers the weight, or an idle collapse. -/
theorem progress (unfinished : state.finish? = none) :
    ∃ action, state.choose config = some action ∧
      ((∃ region outside, action = .duplicate region outside ∧
          (state.perform action).1.duplicated.length = state.duplicated.length + 1 ∧
          state.duplicated.length < config.maxDuplications) ∨
        (state.perform action).1.duplicated = state.duplicated ∧
          (¬ Idles config state ∧ (state.perform action).1.graph.weight < state.graph.weight ∨
            Idles config state ∧
              (state.perform action).1.graph.weight = state.graph.weight)) := by
  cases chosen : state.choose config with
  | none =>
      obtain ⟨entry, finished⟩ := finish?_of_choose_eq_none proper.wellFormed chosen
      rw [unfinished] at finished
      cases finished
  | some action =>
      refine ⟨action, rfl, ?_⟩
      have legal := legal_of_choose proper.wellFormed chosen
      have progress := legal.progress proper.wellFormed
      cases legal with
      | @duplicate region source entrant outside all few =>
          exact .inl ⟨region, outside, rfl, by simp [perform], few⟩
      | _ =>
          refine .inr ⟨rfl, ?_⟩
          rcases progress with
            ⟨_, _, isDuplicate⟩ | ⟨active, lighter⟩ | ⟨collapse, isCollapse, idle, same⟩
          · cases isDuplicate
          · refine .inl ⟨?_, lighter⟩
            rintro ⟨_, collapse, chosen', idle⟩
            exact active collapse (Option.some.inj (chosen.symm.trans chosen')) idle
          · exact .inr ⟨⟨unfinished, collapse, isCollapse ▸ chosen, idle⟩, same⟩

end Proper

/-! ## Runs -/

/-- How a run ends: with the tree of a finished state, or because a state
chose an idle collapse. -/
inductive Verdict (config : Config) (state : State) (outcome : Outcome) : Prop where
  | completes {entry : Nat} (reached : Reached config state outcome.state)
      (finished : outcome.state.finish? = some (.ok (outcome.state.tree entry)))
      (result : outcome.result = .ok (outcome.state.tree entry))
      (active : ∀ later, Reached config state later → ¬ Idles config later)
  | stalls {later : State} {weight : Nat} (reached : Reached config state later)
      (idles : Idles config later) (result : outcome.result = .error (.noProgress weight weight))

/-- A run that begins with a step ends as it ends behind the step. -/
theorem Verdict.before {outcome : Outcome} (steps : Steps config state next)
    (active : ¬ Idles config state) (verdict : Verdict config next outcome)
    (events : List Event) : Verdict config state (outcome.after events) := by
  cases verdict with
  | completes reached finished result allActive =>
      refine .completes (.head steps reached) finished result fun later isReached => ?_
      rcases isReached.cases_steps steps with rfl | behind
      · exact active
      · exact allActive later behind
  | stalls reached idles result => exact .stalls (.head steps reached) idles result

/-- Behind its first step a run ends as it does. -/
theorem Verdict.behind {outcome : Outcome} (steps : Steps config state next)
    (active : ¬ Idles config state) (verdict : Verdict config state outcome) :
    Verdict config next outcome := by
  cases verdict with
  | completes reached finished result allActive =>
      refine .completes ?_ finished result fun later behind => allActive later (.head steps behind)
      refine (reached.cases_steps steps).resolve_left fun same => ?_
      rw [same, steps.1] at finished
      cases finished
  | stalls reached idles result =>
      refine .stalls ((reached.cases_steps steps).resolve_left fun same => ?_) idles result
      exact active (same ▸ idles)

theorem Proper.verdict_reduce {resume : State → Outcome}
    (resumes : ∀ next, Proper config targets next →
      next.duplicated.length = state.duplicated.length + 1 → Verdict config next (resume next))
    (proper : Proper config targets state) (fuel : Nat) (enough : state.graph.weight < fuel) :
    Verdict config state (reduce config resume fuel state) := by
  induction fuel generalizing state with
  | zero => exact absurd enough (Nat.not_lt_zero _)
  | succ fuel inductionHypothesis =>
      rw [reduce]
      cases finished : state.finish? with
      | some result =>
          obtain ⟨entry, rfl, _⟩ := proper.finish?_eq finished
          refine .completes .refl finished rfl fun later isReached => ?_
          rcases isReached.cases_head with rfl | ⟨other, steps, _⟩
          · rintro ⟨unfinished, _⟩
            rw [finished] at unfinished
            cases unfinished
          · have unfinished := steps.1
            rw [finished] at unfinished
            cases unfinished
      | none =>
          obtain ⟨action, chosen, progress⟩ := proper.progress finished
          have steps : Steps config state (state.perform action).1 :=
            ⟨finished, action, chosen, rfl⟩
          have after := proper.step steps
          rw [chosen]
          dsimp only
          rcases progress with
            ⟨region, outside, rfl, longer, _⟩ | ⟨same, ⟨active, lighter⟩ | ⟨idles, equal⟩⟩
          · refine (resumes _ after longer).before steps ?_ _
            rintro ⟨_, collapse, chosen', _⟩
            rw [chosen] at chosen'
            cases chosen'
          · have rest := inductionHypothesis
              (fun next isProper longer => resumes next isProper (by rw [longer, same]))
              after (by omega)
            cases action with
            | duplicate region outside =>
                have grown := congrArg List.length same
                simp [perform] at grown
            | _ =>
                dsimp only
                rw [if_pos lighter]
                exact rest.before steps active _
          · cases action with
            | duplicate region outside =>
                have grown := congrArg List.length same
                simp [perform] at grown
            | _ =>
                dsimp only
                rw [if_neg (by omega), equal]
                exact .stalls .refl idles rfl

theorem Proper.verdict_runWithin (proper : Proper config targets state) (duplications : Nat)
    (left : config.maxDuplications ≤ state.duplicated.length + duplications) :
    Verdict config state (runWithin config duplications state) := by
  induction duplications generalizing state with
  | zero =>
      refine proper.verdict_reduce (fun next isProper longer => ?_) _ (Nat.lt_succ_self _)
      have := isProper.bounded
      omega
  | succ duplications inductionHypothesis =>
      exact proper.verdict_reduce
        (fun next isProper longer => inductionHypothesis isProper (by omega)) _
        (Nat.lt_succ_self _)

/-- Every run ends: with a tree, or at a state that chooses an idle collapse. -/
theorem Proper.verdict_run (proper : Proper config targets state) :
    Verdict config state (state.run config) :=
  proper.verdict_runWithin _ (by omega)

end FlowRegions.State
