import FlowRegions.Proofs.Renaming.Edits
import FlowRegions.Proofs.Renaming.Limit
import FlowRegions.Proofs.Renaming.Residue

/-!
Contract: runs under new names.

Two states that differ in names only choose the same action under the names, and
performing it leads to states that again differ in names only.  So runs from such
states go on step by step together and end together.

Owns:
- `State.Lockstep`, states of two runs that differ in names only, and what they
  choose and how they finish;
- `State.Lockstep.step`, that steps keep it;
- `State.Lockstep.verdicts`, that such runs end together.
-/

namespace FlowRegions

open FlowRegions.Digraph (root terminator)

/-! ## Actions under new names -/

section Related

variable {α β : Type} {related : α → β → Prop} {found : Option α} {found' : Option β}
  (rel : Option.Rel related found found')
include rel

theorem exists_of_rel_left {a : α} (isSome : found = some a) :
    ∃ b, found' = some b ∧ related a b := by
  cases rel with
  | none => cases isSome
  | some holds =>
      cases isSome
      exact ⟨_, rfl, holds⟩

theorem exists_of_rel_right {b : β} (isSome : found' = some b) :
    ∃ a, found = some a ∧ related a b := by
  cases rel with
  | none => cases isSome
  | some holds =>
      cases isSome
      exact ⟨_, rfl, holds⟩

theorem eq_none_iff_of_rel : found = none ↔ found' = none := by
  cases rel with
  | none => simp
  | some _ => simp

end Related

/-- An idle collapse is idle under new names. -/
theorem Collapse.isIdle_relabel {name : Nat → Nat} {collapse : Collapse} :
    (collapse.relabel name).IsIdle ↔ collapse.IsIdle := by
  obtain ⟨members, entry, ⟨shape, cond⟩, out, returns, part⟩ := collapse
  unfold Collapse.IsIdle Collapse.relabel Node.relabel
  cases shape with
  | switch head arms =>
      have same : arms.map (Arm.relabel name) = [{ edges := [0], body := none }] ↔
          arms = [{ edges := [0], body := none }] := by
        cases arms with
        | nil => rfl
        | cons arm rest =>
            obtain ⟨edges, body⟩ := arm
            cases rest <;> simp [Arm.relabel]
      simp [Shape.relabel, same]
  | _ => simp [Shape.relabel]

/-- An action and the same action under new names; predecessors are listed in
any order. -/
inductive SameAction (name : Nat → Nat) : Action → Action → Prop
  | collapse (collapse : Collapse) :
      SameAction name (.collapse collapse) (.collapse (collapse.relabel name))
  | cut (cut : Cut) : SameAction name (.cut cut) (.cut (cut.relabel name))
  | duplicate (region : Nat) {outside outside' : List Nat}
      (same : outside'.Perm (outside.map name)) :
      SameAction name (.duplicate region outside) (.duplicate (name region) outside')

namespace State

/-- A run comes to one finished state. -/
theorem Reached.eq_of_finish? {config : Config} {state final final' : State}
    {result result' : Except RunError Tree} (reached : Reached config state final)
    (reached' : Reached config state final') (finished : final.finish? = some result)
    (finished' : final'.finish? = some result') : final = final' := by
  have stays {a b : State} {result : Except RunError Tree} (isEnd : a.finish? = some result)
      (onward : Reached config a b) : a = b := by
    rcases onward.cases_head with same | ⟨next, steps, _⟩
    · exact same
    · rw [steps.1] at isEnd
      cases isEnd
  have oneWay : Relator.RightUnique (Steps config) :=
    fun _ _ _ first second => second.deterministic first
  rcases Relation.ReflTransGen.total_of_right_unique oneWay reached reached' with
    onward | onward
  · exact stays finished onward
  · exact (stays finished' onward).symm

structure Lockstep (name : Nat → Nat) (kept : Nat → Prop) (config config' : Config)
    (targets targets' : Nat → List Nat) (state other : State) : Prop where
  renamed : Digraph.Renamed name (Node.relabel name name) state.graph other.graph
  proper : Proper config targets state
  proper' : Proper config' targets' other
  all : state.graph.AllReached
  accounted : RegionGraph.Accounted config kept state.graph
  duplicated : other.duplicated = state.duplicated.map name
  labels : other.labels = state.labels.map name

namespace Lockstep

variable {name : Nat → Nat} {kept : Nat → Prop} {config config' : Config}
  {targets targets' : Nat → List Nat} {state other : State}
  (lockstep : Lockstep name kept config config' targets targets' state other)
include lockstep

theorem twins : RegionGraph.Twins name kept state.graph other.graph where
  renamed := lockstep.renamed
  wellFormed := lockstep.proper.wellFormed
  wellFormed' := lockstep.proper'.wellFormed
  leaf := lockstep.accounted.leaf

theorem all' : other.graph.AllReached := by
  intro w live
  obtain ⟨v, rfl, isLive⟩ := lockstep.renamed.exists_of_isLive live
  exact lockstep.renamed.reaches_name.mpr (lockstep.all v isLive)

/-! ## Ends -/

theorem finish?_name : Option.Rel
    (fun result result' => ∃ entry, result = .ok (state.tree entry) ∧
      result' = .ok (other.tree (name entry))) state.finish? other.finish? := by
  have count : other.graph.liveCount = state.graph.liveCount := by
    rw [Digraph.liveCount_eq, Digraph.liveCount_eq, lockstep.renamed.liveIndices_perm.length_eq,
      List.length_map]
  obtain ⟨entry, isEntry, _⟩ := lockstep.proper.wellFormed.entry?_eq
  unfold finish?
  rw [count, lockstep.twins.entry?_name, isEntry]
  dsimp only [Option.map_some]
  rw [lockstep.twins.branches_name, List.isEmpty_map]
  split
  · exact .none
  split
  · exact .some ⟨entry, rfl, rfl⟩
  · exact .none

/-! ## Choices -/

variable (agrees : config.Agrees name kept config')
include agrees

theorem collapse?_name : other.collapse? config' (Analysis.ofGraph other.graph) =
    (state.collapse? config (Analysis.ofGraph state.graph)).map (Collapse.relabel name) := by
  have twins := lockstep.twins
  have isLive {v : Nat} (tried : v ∈ (Analysis.ofGraph state.graph).postorder) :
      state.graph.isLive v = true :=
    (twins.wellFormed.isLive_of_mem_postorder tried).1
  unfold collapse?
  rw [lockstep.renamed.tried_name, lockstep.labels]
  dsimp only
  rw [RegionGraph.findSome?_map name _ fun v tried => twins.cyclic?_name agrees (isLive tried),
    RegionGraph.findSome?_map name _ fun v tried =>
      twins.compound?_name agrees state.labels (isLive tried),
    RegionGraph.findSome?_map name _ fun v tried => twins.acyclic?_name agrees (isLive tried)]
  cases (Analysis.ofGraph state.graph).postorder.findSome? (state.graph.cyclic? config) with
  | some collapse => rfl
  | none =>
      dsimp only [Option.map_none]
      cases (Analysis.ofGraph state.graph).postorder.findSome?
        (state.graph.compound? config state.labels) <;> rfl

theorem isDuplicable_name {v : Nat} {outside outside' : List Nat} (within : v < state.graph.size)
    (same : outside'.Perm (outside.map name)) :
    other.graph.isDuplicable config' other.duplicated.length (name v) outside' =
      state.graph.isDuplicable config state.duplicated.length v outside := by
  have limits := lockstep.renamed.corresponds.limitVertexCount_eq
  have copied := (lockstep.renamed.giveCopy within same).corresponds.limitVertexCount_eq
  unfold RegionGraph.isDuplicable
  rw [lockstep.duplicated, lockstep.twins.leaves_name, List.length_map, List.length_map, ← limits,
    ← copied, agrees.maxDuplications, agrees.duplicationSize]

theorem resolve?_name : Option.Rel (SameAction name)
    (state.resolve? config (Analysis.ofGraph state.graph))
    (other.resolve? config' (Analysis.ofGraph other.graph)) := by
  have twins := lockstep.twins
  unfold resolve?
  dsimp only
  rw [twins.sidewaysEdge?_name]
  cases sideways : state.graph.sidewaysEdge? (Analysis.ofGraph state.graph) with
  | some edge =>
      obtain ⟨source, target⟩ := edge
      have live := twins.wellFormed.isLive_of_mem_exits (sidewaysEdge?_eq_some sideways).2.1
      have outside := twins.outsiders_perm target
      dsimp only [Option.map_some, Prod.map]
      rw [lockstep.isDuplicable_name agrees (Digraph.lt_size_of_isLive live) outside]
      split
      · exact .some (.duplicate target outside)
      · exact .some (.cut ⟨source, target, .irreducible⟩)
  | none =>
      have loops := twins.smallestLoop?_name lockstep.all
      rcases smallestLoop?_cases state.graph (Analysis.ofGraph state.graph) with
        ⟨noLoop, _⟩ | ⟨head, tried, loop, isLoop, smallest⟩
      · rw [noLoop] at loops ⊢
        cases isOther : other.graph.smallestLoop? (Analysis.ofGraph other.graph) with
        | some loop' =>
            rw [isOther] at loops
            cases loops
        | none =>
            dsimp only [Option.map_none]
            rw [twins.joinEdge?_name lockstep.all fun _ => rfl]
            cases state.graph.joinEdge? (Analysis.ofGraph state.graph) fun _ => true with
            | none => exact .none
            | some edge => exact .some (.cut ⟨edge.1, edge.2, .join⟩)
      · rw [smallest] at loops ⊢
        cases isOther : other.graph.smallestLoop? (Analysis.ofGraph other.graph) with
        | none =>
            rw [isOther] at loops
            cases loops
        | some loop' =>
            rw [isOther] at loops
            cases loops with
            | some same =>
                have headLive := (twins.wellFormed.isLive_of_mem_postorder tried).1
                have bodyLive := isLive_of_mem_body twins.wellFormed headLive isLoop
                dsimp only [Option.map_none]
                rw [twins.loopCut?_name lockstep.all same fun v inBody =>
                  lockstep.all v (bodyLive v inBody)]
                cases state.graph.loopCut? (Analysis.ofGraph state.graph) loop with
                | none => exact .none
                | some cut => exact .some (.cut cut)

theorem choose_name :
    Option.Rel (SameAction name) (state.choose config) (other.choose config') := by
  have noStrays {state : State} (consistent : state.graph.Consistent)
      (all : state.graph.AllReached) : state.strays (Analysis.ofGraph state.graph) = [] :=
    List.eq_nil_iff_forall_not_mem.mpr fun v stray =>
      have ⟨live, unreached⟩ := (mem_strays consistent).mp stray
      unreached (all v live)
  unfold choose
  dsimp only
  rw [noStrays lockstep.proper.wellFormed.consistent lockstep.all,
    noStrays lockstep.proper'.wellFormed.consistent lockstep.all', lockstep.collapse?_name agrees]
  dsimp only
  cases state.collapse? config (Analysis.ofGraph state.graph) with
  | some collapse => exact .some (.collapse collapse)
  | none => exact lockstep.resolve?_name agrees

/-! ## Steps -/

/-- The steps of two such states lead to two such states. -/
theorem step {next next' : State} (steps : Steps config state next)
    (steps' : Steps config' other next') :
    Lockstep name kept config config' targets targets' next next' := by
  have after := lockstep.proper.step steps
  have after' := lockstep.proper'.step steps'
  obtain ⟨_, action, chosen, rfl⟩ := steps
  obtain ⟨_, action', chosen', rfl⟩ := steps'
  have wellFormed := lockstep.proper.wellFormed
  have legal := legal_of_choose wellFormed chosen
  have all := legal.allReached wellFormed
  have accounted := legal.keeps_accounted wellFormed lockstep.proper.faithful lockstep.all
    lockstep.accounted
  have same := lockstep.choose_name agrees
  rw [chosen, chosen'] at same
  cases same with
  | some same =>
      cases same with
      | collapse collapse =>
          cases legal with
          | collapse _ live found =>
              exact ⟨lockstep.renamed.collapse (found.fits wellFormed live), after, after', all,
                accounted, lockstep.duplicated, lockstep.labels⟩
      | cut cut =>
          cases legal with
          | @cut source target _ reason _ _ edge =>
              have within := Digraph.lt_size_of_isLive (wellFormed.isLive_of_mem_exits edge)
              refine ⟨lockstep.renamed.cut within, after, after', all, accounted,
                lockstep.duplicated, ?_⟩
              have first : other.graph.firstVertex? (name target) =
                  (state.graph.firstVertex? target).map name :=
                lockstep.twins.firstVertex?_name target
              show other.labels ++ (other.graph.firstVertex? (name target)).toList =
                (state.labels ++ (state.graph.firstVertex? target).toList).map name
              rw [lockstep.labels, first, List.map_append, Option.toList_map]
      | @duplicate region outside outside' sameOutside =>
          cases legal with
          | duplicate _ _ live =>
              refine ⟨lockstep.renamed.giveCopy (Digraph.lt_size_of_isLive live) sameOutside,
                after, after', all, accounted, ?_, lockstep.labels⟩
              show other.duplicated ++ [name region] = (state.duplicated ++ [region]).map name
              rw [lockstep.duplicated, List.map_append, List.map_singleton]

omit agrees in
theorem finish?_eq_none_iff : other.finish? = none ↔ state.finish? = none :=
  (eq_none_iff_of_rel lockstep.finish?_name).symm

theorem exists_steps {next : State} (steps : Steps config state next) :
    ∃ next', Steps config' other next' ∧
      Lockstep name kept config config' targets targets' next next' := by
  obtain ⟨unfinished, action, chosen, _⟩ := id steps
  obtain ⟨action', chosen', _⟩ := exists_of_rel_left (lockstep.choose_name agrees) chosen
  have steps' : Steps config' other (other.perform action').1 :=
    ⟨lockstep.finish?_eq_none_iff.mpr unfinished, action', chosen', rfl⟩
  exact ⟨_, steps', lockstep.step agrees steps steps'⟩

theorem exists_steps' {next' : State} (steps' : Steps config' other next') :
    ∃ next, Steps config state next ∧
      Lockstep name kept config config' targets targets' next next' := by
  obtain ⟨unfinished, action', chosen', _⟩ := id steps'
  obtain ⟨action, chosen, _⟩ := exists_of_rel_right (lockstep.choose_name agrees) chosen'
  have steps : Steps config state (state.perform action).1 :=
    ⟨lockstep.finish?_eq_none_iff.mp unfinished, action, chosen, rfl⟩
  exact ⟨_, steps, lockstep.step agrees steps steps'⟩

/-- Two such states are idle together. -/
theorem idles_iff : Idles config' other ↔ Idles config state := by
  unfold Idles
  rw [lockstep.finish?_eq_none_iff]
  apply and_congr_right'
  constructor
  · rintro ⟨collapse', chosen', idle⟩
    obtain ⟨action, chosen, same⟩ := exists_of_rel_right (lockstep.choose_name agrees) chosen'
    cases same with
    | collapse collapse => exact ⟨collapse, chosen, collapse.isIdle_relabel.mp idle⟩
  · rintro ⟨collapse, chosen, idle⟩
    obtain ⟨action', chosen', same⟩ := exists_of_rel_left (lockstep.choose_name agrees) chosen
    cases same with
    | collapse => exact ⟨_, chosen', collapse.isIdle_relabel.mpr idle⟩

/-! ## Runs -/

theorem exists_reached {later : State} (reached : Reached config state later) :
    ∃ later', Reached config' other later' ∧
      Lockstep name kept config config' targets targets' later later' := by
  induction reached with
  | refl => exact ⟨other, .refl, lockstep⟩
  | tail _ steps inductionHypothesis =>
      obtain ⟨later', before, here⟩ := inductionHypothesis
      obtain ⟨next', steps', there⟩ := here.exists_steps agrees steps
      exact ⟨next', before.tail steps', there⟩

theorem exists_reached' {later' : State} (reached' : Reached config' other later') :
    ∃ later, Reached config state later ∧
      Lockstep name kept config config' targets targets' later later' := by
  induction reached' with
  | refl => exact ⟨state, .refl, lockstep⟩
  | tail _ steps' inductionHypothesis =>
      obtain ⟨later, before, here⟩ := inductionHypothesis
      obtain ⟨next, steps, there⟩ := here.exists_steps' agrees steps'
      exact ⟨next, before.tail steps, there⟩

/-- Two such runs end together: both with a tree, in states that differ in names
only, or both without one. -/
theorem verdicts {outcome outcome' : Outcome} (verdict : Verdict config state outcome)
    (verdict' : Verdict config' other outcome') :
    (∃ entry, outcome.result = .ok (outcome.state.tree entry) ∧
      outcome'.result = .ok (outcome'.state.tree (name entry)) ∧
      outcome.state.finish? = some (.ok (outcome.state.tree entry)) ∧
      Reached config state outcome.state ∧
      Lockstep name kept config config' targets targets' outcome.state outcome'.state) ∨
    (∃ error, outcome.result = .error error) ∧ ∃ error, outcome'.result = .error error := by
  cases verdict with
  | @completes entry reached finished result active =>
      cases verdict' with
      | @completes entry' reached' finished' result' =>
          obtain ⟨later', isLater, there⟩ := lockstep.exists_reached agrees reached
          obtain ⟨tree', isTree', sameEntry⟩ := exists_of_rel_left there.finish?_name finished
          have same := isLater.eq_of_finish? reached' isTree' finished'
          subst same
          obtain ⟨top, isTree, rfl⟩ := sameEntry
          have sameTop : entry = top := congrArg Tree.root (Except.ok.inj isTree)
          rw [← sameTop, finished'] at isTree'
          exact .inl ⟨entry, result, result'.trans (Option.some.inj isTree'), finished, reached,
            there⟩
      | stalls reached' idles' =>
          obtain ⟨later, isLater, there⟩ := lockstep.exists_reached' agrees reached'
          exact absurd ((there.idles_iff agrees).mp idles') (active later isLater)
  | stalls reached idles result =>
      cases verdict' with
      | completes _ _ _ active' =>
          obtain ⟨later', isLater, there⟩ := lockstep.exists_reached agrees reached
          exact absurd ((there.idles_iff agrees).mpr idles) (active' later' isLater)
      | stalls _ _ result' => exact .inr ⟨⟨_, result⟩, _, result'⟩

end Lockstep

end State

end FlowRegions
