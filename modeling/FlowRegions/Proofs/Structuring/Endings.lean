import FlowRegions.Proofs.Structuring.Runs

/-!
Contract: how runs end, whatever state they start from.

A run stops at a finished state, at a state that has nothing to do, or behind a step
that does not lower the weight though it is no duplication.  It never stops because its
fuel is used up: the weight bounds the steps between two duplications, and no more
duplications are chosen than are allowed.

Owns:
- `State.Ends`, why a run stopped, and that every run stops for one of these reasons;
- `Structuring.afterRuns`, what several runs leave behind, and that they go on where the
  run before them stopped.
-/

namespace FlowRegions

namespace State

variable {config : Config} {state next : State} {outcome : Outcome}

inductive Ends (config : Config) (state : State) (outcome : Outcome) : Prop where
  | finishes (reached : Reached config state outcome.state)
      (finished : outcome.state.finish? = some outcome.result)
  | sticks (reached : Reached config state outcome.state)
      (unfinished : outcome.state.finish? = none)
      (nothing : outcome.state.choose config = none)
      (result : outcome.result = .error (.stuck outcome.state.graph.liveCount))
  | stalls {last : State} (reached : Reached config state last)
      (steps : Steps config last outcome.state)
      (heavy : last.graph.weight ≤ outcome.state.graph.weight)
      (result : outcome.result =
        .error (.noProgress outcome.state.graph.weight last.graph.weight))

/-- A run that begins with a step stops where it stops behind the step. -/
theorem Ends.before (steps : Steps config state next) (ends : Ends config next outcome)
    (events : List Event) : Ends config state (outcome.after events) := by
  cases ends with
  | finishes reached finished => exact .finishes (.head steps reached) finished
  | sticks reached unfinished nothing result =>
      exact .sticks (.head steps reached) unfinished nothing result
  | stalls reached last heavy result => exact .stalls (.head steps reached) last heavy result

theorem Ends.reached (ends : Ends config state outcome) :
    Reached config state outcome.state := by
  cases ends with
  | finishes reached _ => exact reached
  | sticks reached _ _ _ => exact reached
  | stalls reached steps _ _ => exact .tail reached steps

/-- A region is duplicated only while duplications are left. -/
theorem few_of_choose {region : Nat} {outside : List Nat}
    (chosen : state.choose config = some (.duplicate region outside)) :
    state.duplicated.length < config.maxDuplications := by
  cases choice_of_choose chosen with
  | duplicate _ _ few => exact few

theorem ends_reduce {resume : State → Outcome} {count : Nat}
    (resumes : ∀ next : State, count < config.maxDuplications →
      next.duplicated.length = count + 1 → Ends config next (resume next))
    (fuel : Nat) (enough : state.graph.weight < fuel) (same : state.duplicated.length = count) :
    Ends config state (reduce config resume fuel state) := by
  induction fuel generalizing state with
  | zero => exact absurd enough (Nat.not_lt_zero _)
  | succ fuel inductionHypothesis =>
      rw [reduce]
      cases finished : state.finish? with
      | some result => exact .finishes .refl finished
      | none =>
          cases chosen : state.choose config with
          | none => exact .sticks .refl finished chosen rfl
          | some action =>
              have steps : Steps config state (state.perform action).1 :=
                ⟨finished, action, chosen, rfl⟩
              cases action with
              | duplicate region outside =>
                  refine (resumes _ (same ▸ few_of_choose chosen) ?_).before steps _
                  simp [perform, same]
              | _ =>
                  dsimp only
                  split
                  · rename_i lighter
                    refine Ends.before steps (inductionHypothesis ?_ ?_) _
                    · omega
                    · exact same
                  · rename_i heavy
                    exact .stalls .refl steps (Nat.not_lt.mp heavy) rfl

theorem ends_runWithin (duplications : Nat)
    (left : config.maxDuplications ≤ state.duplicated.length + duplications) :
    Ends config state (runWithin config duplications state) := by
  induction duplications generalizing state with
  | zero => exact ends_reduce (fun next few _ => by omega) _ (Nat.lt_succ_self _) rfl
  | succ duplications inductionHypothesis =>
      exact ends_reduce (fun next _ longer => inductionHypothesis (by omega)) _
        (Nat.lt_succ_self _) rfl

/-- Every run stops for one of the reasons. -/
theorem ends_run (config : Config) (state : State) : Ends config state (state.run config) :=
  ends_runWithin _ (by omega)

/-- A run from a finished state does nothing. -/
theorem run_of_finish? {result : Except RunError Tree} (finished : state.finish? = some result) :
    state.run config = ⟨state, [], result⟩ := by
  unfold run
  cases config.maxDuplications - state.duplicated.length with
  | zero => rw [runWithin, reduce, finished]
  | succ duplications => rw [runWithin, reduce, finished]

/-- Where a run that ends with a tree ends. -/
theorem exists_final_of_run {tree : Tree} (result : (state.run config).result = .ok tree) :
    ∃ final, Reached config state final ∧ final.finish? = some (.ok tree) := by
  cases ends_run config state with
  | finishes reached finished => exact ⟨_, reached, finished.trans (congrArg some result)⟩
  | sticks _ _ _ failed =>
      rw [failed] at result
      cases result
  | stalls _ _ _ failed =>
      rw [failed] at result
      cases result

/-- The tree of a finished state holds its table. -/
theorem tree_of_finish? {tree : Tree} (finished : state.finish? = some (.ok tree)) :
    ∃ entry, tree = state.tree entry := by
  unfold finish? at finished
  split at finished
  · cases finished
  · split at finished
    · cases finished
    · rename_i entry _
      split at finished
      · exact ⟨entry, (Except.ok.inj (Option.some.inj finished)).symm⟩
      · cases finished

/-- A state is finished without a tree when one region is left and the root leads
nowhere. -/
theorem finish?_eq_rootless :
    state.finish? = some (.error .rootless) ↔
      state.graph.liveCount = 1 ∧ state.graph.entry? = none := by
  unfold finish?
  split
  · rename_i several
    simp_all
  · rename_i single
    cases state.graph.entry? with
    | none => simpa using single
    | some entry =>
        dsimp only
        split <;> simp

end State

namespace Structuring

def afterRuns (structuring : Structuring) (count : Nat) : Structuring :=
  (fun structuring => structuring.run.1)^[count] structuring

variable (structuring : Structuring)

theorem reached_run : structuring.run.1.config = structuring.config ∧
    State.Reached structuring.config structuring.state structuring.run.1.state := by
  unfold Structuring.run
  split
  · exact ⟨rfl, .refl⟩
  · exact ⟨rfl, (State.ends_run _ _).reached⟩

/-- Each run goes on where the one before it stopped. -/
theorem reached_afterRuns (count : Nat) :
    (structuring.afterRuns count).config = structuring.config ∧
      State.Reached structuring.config structuring.state (structuring.afterRuns count).state := by
  induction count with
  | zero => exact ⟨rfl, .refl⟩
  | succ count inductionHypothesis =>
      obtain ⟨sameConfig, reached⟩ := inductionHypothesis
      obtain ⟨nextConfig, onward⟩ := reached_run (structuring.afterRuns count)
      rw [sameConfig] at nextConfig onward
      rw [afterRuns, Function.iterate_succ_apply']
      exact ⟨nextConfig, reached.trans onward⟩

/-- A run keeps its tree for the next one. -/
theorem result_of_finished_run {tree : Tree} (finished : structuring.run.1.finished = some tree) :
    structuring.run.2.2 = .ok tree := by
  unfold Structuring.run at finished ⊢
  cases isFinished : structuring.finished with
  | some kept =>
      rw [isFinished] at finished
      exact congrArg Except.ok (Option.some.inj (isFinished.symm.trans finished))
  | none =>
      rw [isFinished] at finished
      dsimp only at finished ⊢
      cases result : (structuring.state.run structuring.config).result with
      | ok kept =>
          rw [result] at finished
          exact congrArg Except.ok (Option.some.inj finished)
      | error problem =>
          rw [result] at finished
          cases finished

/-- Whichever run comes to a tree, it is that of a state on the way. -/
theorem exists_final_afterRuns (unfinished : structuring.finished = none) (count : Nat)
    {tree : Tree} (result : (structuring.afterRuns count).run.2.2 = .ok tree) :
    ∃ final, State.Reached structuring.config structuring.state final ∧
      final.finish? = some (.ok tree) := by
  induction count with
  | zero =>
      change structuring.run.2.2 = .ok tree at result
      rw [Structuring.run, unfinished] at result
      exact State.exists_final_of_run result
  | succ count inductionHypothesis =>
      obtain ⟨sameConfig, reached⟩ := structuring.reached_afterRuns (count + 1)
      have again : structuring.afterRuns (count + 1) = (structuring.afterRuns count).run.1 := by
        rw [afterRuns, Function.iterate_succ_apply']
        rfl
      cases isFinished : (structuring.afterRuns (count + 1)).finished with
      | some kept =>
          -- A tree that is kept is what the run before came to.
          rw [Structuring.run, isFinished] at result
          cases result
          rw [again] at isFinished
          exact inductionHypothesis (result_of_finished_run _ isFinished)
      | none =>
          rw [Structuring.run, isFinished, sameConfig] at result
          obtain ⟨final, onward, isFinal⟩ := State.exists_final_of_run result
          exact ⟨final, reached.trans onward, isFinal⟩

variable {structuring}

/-- Runs from a state that is finished without a tree all fail alike. -/
theorem afterRuns_of_failed {problem : RunError} (unfinished : structuring.finished = none)
    (failed : structuring.state.finish? = some (.error problem)) (count : Nat) :
    structuring.run.2.2 = .error problem ∧ structuring.afterRuns count = structuring := by
  have ran : structuring.run = (structuring, [], .error problem) := by
    obtain ⟨config, state, finished⟩ := structuring
    cases unfinished
    rw [Structuring.run, State.run_of_finish? failed]
    rfl
  refine ⟨by rw [ran], ?_⟩
  exact Function.iterate_fixed (by rw [ran]) count

/-- A run fails for want of an entry in a state that is finished so. -/
theorem finish?_of_run_rootless (rootless : structuring.run.2.2 = .error .rootless) :
    structuring.run.1.state.finish? = some (.error .rootless) := by
  unfold Structuring.run at rootless ⊢
  cases isFinished : structuring.finished with
  | some tree =>
      rw [isFinished] at rootless
      cases rootless
  | none =>
      rw [isFinished] at rootless
      dsimp only at rootless ⊢
      cases State.ends_run structuring.config structuring.state with
      | finishes _ finished => rw [finished, rootless]
      | sticks _ _ _ result =>
          rw [result] at rootless
          cases rootless
      | stalls _ _ _ result =>
          rw [result] at rootless
          cases rootless

end Structuring

end FlowRegions
