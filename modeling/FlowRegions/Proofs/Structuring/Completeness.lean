import FlowRegions.Structuring.Run
import FlowRegions.Proofs.Structuring.Choices
import Mathlib.Data.Finset.Max

/-!
Contract: there is always something to do until the flow is reduced to one
region.

When no cut is found, every region is entered from one place, so the flow is a
tree.  The last region in preorder that still branches then leads to regions
that lead nowhere, and is a sequence, a conditional or a switch.
-/

namespace FlowRegions

open FlowRegions.Digraph (root terminator)

/-- The live vertices are counted as they are listed. -/
theorem Digraph.liveCount_eq {α : Type} (graph : Digraph α) :
    graph.liveCount = graph.liveIndices.length := by
  have marks : graph.indices.map graph.isLive = graph.vertices.toList.map Vertex.isLive := by
    refine List.ext_getElem (by simp [indices, size]) fun i low high => ?_
    simp only [List.length_map] at low high
    have within : i < graph.vertices.size := by simpa using high
    simp [indices, isLive, vertex?, Array.getElem?_eq_getElem within]
  rw [liveCount, liveIndices, ← List.countP_eq_length_filter, ← Array.countP_toList]
  have counted := congrArg (List.countP id) marks
  rw [List.countP_map, List.countP_map] at counted
  exact counted.symm

namespace RegionGraph

variable {config : Config} {graph : RegionGraph} {v : Nat}

/-! ## Regions that lead to ends -/

/-- A region whose exits are entered from it only and lead nowhere. -/
structure Frontier (graph : RegionGraph) (v : Nat) : Prop where
  some_exit : graph.exits v ≠ []
  proper : ∀ d ∈ graph.exits v, d ≠ v
  alone : ∀ d ∈ graph.exits v, graph.entersAlone v d = true
  ends : ∀ d ∈ graph.exits v, graph.exits d = []

theorem Frontier.sequence? (frontier : Frontier graph v) {next : Nat}
    (single : graph.exits v = [next]) : (graph.sequence? config v).isSome = true := by
  have member : next ∈ graph.exits v := by rw [single]; simp
  simp [RegionGraph.sequence?, single, frontier.proper next member, frontier.alone next member,
    frontier.ends next member]

theorem Frontier.ifElse? (frontier : Frontier graph v) {a b : Nat}
    (branches : graph.branches v = [a, b]) (different : a ≠ b)
    (notMany : graph.branchesManyWays config v = false) :
    (graph.ifElse? config v).isSome = true := by
  have isExit (d : Nat) (member : d ∈ [a, b]) : d ∈ graph.exits v := by
    rw [exits, List.mem_eraseDups, branches]
    exact member
  have first := isExit a (by simp)
  have second := isExit b (by simp)
  have fork := fork?_of_branches branches notMany
    ⟨different, frontier.proper a first, frontier.proper b second⟩
  simp [RegionGraph.ifElse?, fork, frontier.alone a first, frontier.alone b second,
    frontier.ends a first, frontier.ends b second]

theorem Frontier.foldlM_take? (frontier : Frontier graph v) (targets : List Nat)
    (subset : targets ⊆ graph.exits v) (scan : SwitchScan) (noFollow : scan.follow = none) :
    (targets.foldlM (SwitchScan.take? graph v) scan).isSome = true := by
  induction targets generalizing scan with
  | nil => rfl
  | cons d targets inductionHypothesis =>
      have taken : SwitchScan.take? graph v scan d =
          some ⟨none, scan.members ++ [d], scan.returns || graph.returns d⟩ := by
        simp [SwitchScan.take?, noFollow, frontier.ends d (subset List.mem_cons_self)]
      rw [List.foldlM_cons, taken]
      exact inductionHypothesis (fun t member => subset (List.mem_cons_of_mem _ member)) _ rfl

theorem Frontier.switch? (frontier : Frontier graph v)
    (many : graph.branchesManyWays config v = true) :
    (graph.switch? config v).isSome = true := by
  have noneShared : (graph.exits v).filter (fun d => !graph.entersAlone v d) = [] := by
    refine List.filter_eq_nil_iff.mpr fun d member => ?_
    simp [frontier.alone d member]
  have notSelf : v ∉ graph.exits v := fun member => frontier.proper v member rfl
  obtain ⟨scan, scanned⟩ := Option.isSome_iff_exists.mp
    (frontier.foldlM_take? (graph.exits v) (fun d member => member)
      ⟨none, [v], graph.returns v⟩ rfl)
  unfold RegionGraph.switch?
  dsimp only
  rw [show (graph.branches v).eraseDups = graph.exits v from rfl, noneShared, many,
    if_neg (by simp [frontier.some_exit, notSelf]), List.head?_nil, scanned]
  rfl

/-- Some acyclic rule applies where all exits lead nowhere. -/
theorem Frontier.acyclic? (frontier : Frontier graph v) :
    (graph.acyclic? config v).isSome = true := by
  have applies {rule : Config → RegionGraph → Nat → Option Collapse}
      (isRule : rule ∈ [RegionGraph.sequence?, RegionGraph.ifElse?, ifThen?, RegionGraph.switch?])
      (found : (rule config graph v).isSome = true) : (graph.acyclic? config v).isSome = true := by
    rw [RegionGraph.acyclic?, List.findSome?_isSome_iff]
    exact ⟨rule, isRule, found⟩
  by_cases many : graph.branchesManyWays config v = true
  · exact applies (by simp) (frontier.switch? many)
  · have notMany : graph.branchesManyWays config v = false := by simpa using many
    have few : (graph.branches v).length ≤ 2 := by
      unfold branchesManyWays at notMany
      simp only [Bool.or_eq_false_iff, decide_eq_false_iff_not] at notMany
      omega
    have single (a : Nat) {targets : List Nat} (branches : graph.branches v = targets)
        (only : a ∈ targets ∧ ∀ d ∈ targets, d = a) : graph.exits v = [a] := by
      rw [eq_singleton_iff (nodup_exits graph v), exits, branches]
      simpa only [List.mem_eraseDups] using only
    rcases branches : graph.branches v with _ | ⟨a, _ | ⟨b, _ | ⟨c, rest⟩⟩⟩
    · exact absurd (exits_eq_nil_iff.mpr branches) frontier.some_exit
    · exact applies (by simp) (frontier.sequence? (single a branches (by simp)))
    · by_cases same : a = b
      · subst same
        exact applies (by simp) (frontier.sequence? (single a branches (by simp)))
      · exact applies (by simp) (frontier.ifElse? branches same notMany)
    · rw [branches] at few
      simp at few

end RegionGraph

/-! ## States that offer nothing to do -/

namespace State

variable {config : Config} {state : State} (wellFormed : state.graph.WellFormed)
  (all : state.graph.AllReached)
include wellFormed all

omit all in
/-- No region dominates a predecessor when there is no natural loop. -/
theorem not_dominates_of_no_loop {v p : Nat} (live : state.graph.isLive v = true)
    (noLoop : state.graph.naturalLoop? (Analysis.ofGraph state.graph) v = none)
    (edge : v ∈ state.graph.successors p) :
    (Analysis.ofGraph state.graph).dominates v p = false := by
  cases dominates : (Analysis.ofGraph state.graph).dominates v p with
  | false => rfl
  | true =>
      by_cases isRoot : p = root
      · subst isRoot
        have guarded := ((Analysis.dominates_iff wellFormed.consistent).mp dominates).2.2
        exact absurd (List.mem_singleton.mp (guarded [root] (.stay root)))
          (wellFormed.ne_root_of_isLive live)
      · unfold RegionGraph.naturalLoop? at noLoop
        dsimp only at noLoop
        split at noLoop
        · rename_i noLatch
          rw [List.isEmpty_iff, List.filter_eq_nil_iff] at noLatch
          have isEntrant := (RegionGraph.mem_entrants wellFormed.consistent).mpr edge
          exact absurd (by simp [isRoot, dominates]) (noLatch p isEntrant)
        · cases noLoop

/-- Without natural loops and joins, regions are entered from one place. -/
theorem entrant_unique (noLoop : ∀ head ∈ (Analysis.ofGraph state.graph).postorder,
      state.graph.naturalLoop? (Analysis.ofGraph state.graph) head = none)
    (noJoin : state.graph.joinEdge? (Analysis.ofGraph state.graph) (fun _ => true) = none)
    {v p q : Nat} (live : state.graph.isLive v = true) (first : v ∈ state.graph.successors p)
    (second : v ∈ state.graph.successors q) : p = q := by
  have isTried : v ∈ (Analysis.ofGraph state.graph).postorder :=
    (Analysis.mem_postorder wellFormed.consistent).mpr
      ⟨all v live, wellFormed.ne_root_of_isLive live, wellFormed.ne_terminator_of_isLive live⟩
  cases isJump : state.graph.isJump v with
  | true => exact wellFormed.jump_entrant isJump first second
  | false =>
      have aheadEq : (state.graph.entrants v).filter (fun p =>
          !(Analysis.ofGraph state.graph).dominates v p) = state.graph.entrants v := by
        refine List.filter_eq_self.mpr fun p member => ?_
        rw [not_dominates_of_no_loop wellFormed live (noLoop v isTried)
          ((RegionGraph.mem_entrants wellFormed.consistent).mp member)]
        rfl
      unfold RegionGraph.joinEdge? at noJoin
      have here := List.findSome?_eq_none_iff.mp noJoin v isTried
      rw [isJump, aheadEq] at here
      simp only [Bool.not_true, Bool.or_self, Bool.false_eq_true, if_false] at here
      have isEntrant {p : Nat} (edge : v ∈ state.graph.successors p) :
          p ∈ state.graph.entrants v := (RegionGraph.mem_entrants wellFormed.consistent).mpr edge
      split at here
      · rename_i few
        match entrants : state.graph.entrants v with
        | [] =>
            have member := isEntrant first
            rw [entrants] at member
            cases member
        | [only] =>
            have pMember := isEntrant first
            have qMember := isEntrant second
            rw [entrants] at pMember qMember
            rw [List.mem_singleton.mp pMember, List.mem_singleton.mp qMember]
        | _ :: _ :: _ =>
            rw [entrants, List.length_cons, List.length_cons] at few
            omega
      · -- Every predecessor would be the immediate dominator.
        have isIdom {p : Nat} (edge : v ∈ state.graph.successors p) :
            (Analysis.ofGraph state.graph).dominators.idom? v = some p := by
          have notFound := List.find?_eq_none.mp (Option.map_eq_none_iff.mp here) p
            ((mem_sortBy _ _ p).mpr (isEntrant edge))
          simpa using notFound
        exact Option.some.inj ((isIdom first).symm.trans (isIdom second))

/-- In a tree of regions to which no rule applies, nothing branches. -/
theorem exits_eq_nil_of_no_rule
    (noRule : state.collapse? config (Analysis.ofGraph state.graph) = none)
    (unique : ∀ {v p q : Nat}, state.graph.isLive v = true → v ∈ state.graph.successors p →
      v ∈ state.graph.successors q → p = q) {v : Nat} (live : state.graph.isLive v = true) :
    state.graph.exits v = [] := by
  have consistent := wellFormed.consistent
  by_contra branching
  -- Of the regions that branch, the one that comes last in preorder.
  obtain ⟨last, isLast, latest⟩ := Finset.exists_max_image
    ((state.graph.liveIndices.filter fun w => !(state.graph.exits w).isEmpty).toFinset)
    (Analysis.ofGraph state.graph).order
    ⟨v, by simp [Digraph.mem_liveIndices, live, branching]⟩
  simp only [List.mem_toFinset, List.mem_filter, Digraph.mem_liveIndices, Bool.not_eq_true',
    List.isEmpty_eq_false_iff] at isLast latest
  have later {d : Nat} (isExit : d ∈ state.graph.exits last) :
      (Analysis.ofGraph state.graph).order last < (Analysis.ofGraph state.graph).order d := by
    have dLive := wellFormed.isLive_of_mem_exits isExit
    obtain ⟨p, edge, _, _, before⟩ := Analysis.exists_entrant consistent (all d dLive)
      (wellFormed.ne_root_of_isLive dLive)
    rwa [unique dLive edge (RegionGraph.mem_exits.mp isExit).1] at before
  have frontier : RegionGraph.Frontier state.graph last :=
    { some_exit := isLast.2
      proper := fun d isExit same => by
        have := later isExit
        rw [same] at this
        omega
      alone := fun d isExit => by
        have edge := (RegionGraph.mem_exits.mp isExit).1
        exact (RegionGraph.entersAlone_iff consistent).mpr ⟨edge, fun q other =>
          unique (wellFormed.isLive_of_mem_exits isExit) other edge⟩
      ends := fun d isExit => by
        by_contra branches
        have := latest d ⟨wellFormed.isLive_of_mem_exits isExit, branches⟩
        have := later isExit
        omega }
  have isTried : last ∈ (Analysis.ofGraph state.graph).postorder :=
    (Analysis.mem_postorder consistent).mpr ⟨all last isLast.1,
      wellFormed.ne_root_of_isLive isLast.1, wellFormed.ne_terminator_of_isLive isLast.1⟩
  unfold State.collapse? at noRule
  dsimp only at noRule
  split at noRule
  · cases noRule
  · split at noRule
    · cases noRule
    · have applies : (state.graph.acyclic? config last).isSome = true := frontier.acyclic?
      rw [List.findSome?_eq_none_iff.mp noRule last isTried] at applies
      cases applies

/-- A flow without branches is a single region. -/
theorem finish?_of_no_exits (ends : ∀ v, state.graph.isLive v = true → state.graph.exits v = []) :
    ∃ entry, state.graph.entry? = some entry ∧ state.graph.liveIndices = [entry] ∧
      state.graph.branches entry = [] ∧ state.finish? = some (.ok (state.tree entry)) := by
  obtain ⟨entry, isEntry, successors, entryLive, _⟩ := wellFormed.entry?_eq
  have reached {v : Nat} (reaches : state.graph.Reaches .forward root v) :
      v = root ∨ v = entry ∨ v = terminator := by
    rw [Digraph.reaches_iff] at reaches
    induction reaches with
    | refl => exact .inl rfl
    | @tail u w _ edge inductionHypothesis =>
        change w ∈ state.graph.successors u at edge
        rcases inductionHypothesis with rfl | rfl | rfl
        · rw [successors] at edge
          exact .inr (.inl (List.mem_singleton.mp edge))
        · by_cases isEnd : w = terminator
          · exact .inr (.inr isEnd)
          · have isExit := RegionGraph.mem_exits.mpr ⟨edge, isEnd⟩
            rw [ends u entryLive] at isExit
            cases isExit
        · rw [wellFormed.successors_terminator] at edge
          cases edge
  have liveEq : state.graph.liveIndices = [entry] := by
    refine (RegionGraph.eq_singleton_iff (List.nodup_range.filter _)).mpr
      ⟨(Digraph.mem_liveIndices _ _).mpr entryLive, fun v member => ?_⟩
    have live := (Digraph.mem_liveIndices _ _).mp member
    rcases reached (all v live) with isRoot | same | isEnd
    · exact absurd isRoot (wellFormed.ne_root_of_isLive live)
    · exact same
    · exact absurd isEnd (wellFormed.ne_terminator_of_isLive live)
  have noBranch := RegionGraph.exits_eq_nil_iff.mp (ends entry entryLive)
  refine ⟨entry, isEntry, liveEq, noBranch, ?_⟩
  simp [finish?, Digraph.liveCount_eq, liveEq, isEntry, noBranch]

omit all in
/-- There is something to do until one region is left that leads nowhere. -/
theorem finish?_of_choose_eq_none (nothing : state.choose config = none) :
    ∃ entry, state.finish? = some (.ok (state.tree entry)) := by
  unfold choose at nothing
  dsimp only at nothing
  split at nothing
  · rename_i noStray
    have all := allReached_of_strays_eq_nil wellFormed noStray
    split at nothing
    · cases nothing
    rename_i noRule
    unfold resolve? at nothing
    dsimp only at nothing
    split at nothing
    · split at nothing <;> cases nothing
    rcases smallestLoop?_cases state.graph (Analysis.ofGraph state.graph) with
      ⟨noLoop, noLoops⟩ | ⟨head, isTried, loop, isLoop, smallest⟩
    · rw [noLoop] at nothing
      have noJoin := Option.map_eq_none_iff.mp nothing
      obtain ⟨entry, _, _, _, finished⟩ := finish?_of_no_exits wellFormed all fun v live =>
        exits_eq_nil_of_no_rule wellFormed all noRule
          (entrant_unique wellFormed all noLoops noJoin) live
      exact ⟨entry, finished⟩
    · obtain ⟨_, someLatch, _, _⟩ := naturalLoop?_cases wellFormed.consistent isLoop
      obtain ⟨cut, isCut⟩ : ∃ cut,
          state.graph.loopCut? (Analysis.ofGraph state.graph) loop = some cut :=
        exists_loopCut? someLatch
      rw [smallest] at nothing
      dsimp only at nothing
      rw [isCut] at nothing
      cases nothing
  · cases nothing

end State

end FlowRegions
