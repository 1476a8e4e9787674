import FlowRegions.Structuring.Step
import FlowRegions.Proofs.Structuring.Flow
import FlowRegions.Proofs.Structuring.Rules

/-!
Contract: what is known about an action that a state chooses.

Owns:
- `RegionGraph.AllReached`, that every live region is reached from the root;
- `State.Choice`, where an action comes from: one constructor for each place where
  `State.choose` finds one;
- `State.Departs`, that a cut edge leaves a region, whatever the graph;
- `State.Legal`, one constructor for each kind of action, with everything that
  the effects of the action depend on;
- `State.legal_of_choose`, that every chosen action is legal.

Whatever the reason for a cut, the target has another predecessor that is
reached without passing the target.  That it stays reachable, and that it is no
jump, follow from this alone.
-/

namespace FlowRegions

open FlowRegions.Digraph (root terminator)

namespace RegionGraph

variable {graph : RegionGraph} {v : Nat}

def AllReached (graph : RegionGraph) : Prop :=
  ∀ v, graph.isLive v = true → graph.Reaches .forward root v

theorem WellFormed.isLive_of_reaches (wellFormed : graph.WellFormed)
    (reaches : graph.Reaches .forward root v) (notRoot : v ≠ root) (notEnd : v ≠ terminator) :
    graph.isLive v = true := by
  rw [Digraph.reaches_iff] at reaches
  cases reaches with
  | refl => exact absurd rfl notRoot
  | tail _ edge => exact (wellFormed.ends edge).2.resolve_left notEnd

theorem WellFormed.isLive_of_mem_postorder (wellFormed : graph.WellFormed)
    (member : v ∈ (Analysis.ofGraph graph).postorder) :
    graph.isLive v = true ∧ graph.Reaches .forward root v := by
  obtain ⟨reaches, notRoot, notEnd⟩ := (Analysis.mem_postorder wellFormed.consistent).mp member
  exact ⟨wellFormed.isLive_of_reaches reaches notRoot notEnd, reaches⟩

end RegionGraph

namespace State

/-- What is known about an action when it is chosen. -/
inductive Legal (config : Config) (state : State) : Action → Prop where
  | prune {regions : List Nat} (some_stray : regions ≠ [])
      (stray_iff : ∀ r, r ∈ regions ↔
        state.graph.isLive r = true ∧ ¬ state.graph.Reaches .forward root r) :
      Legal config state (.prune regions)
  | collapse {v : Nat} {collapse : Collapse} (all : state.graph.AllReached)
      (live : state.graph.isLive v = true)
      (found : RegionGraph.Matches config state.labels state.graph v collapse) :
      Legal config state (.collapse collapse)
  | duplicate {region source entrant : Nat} {outside : List Nat} (all : state.graph.AllReached)
      (few : state.duplicated.length < config.maxDuplications)
      (live : state.graph.isLive region = true)
      (entering : ∀ p ∈ outside, region ∈ state.graph.successors p)
      (back : region ∈ state.graph.successors source) (inside : source ∉ outside)
      (away : source ≠ region)
      (around : Relation.ReflTransGen (state.graph.EdgePast .forward region) region source)
      (isOutside : entrant ∈ outside)
      (ahead : Relation.ReflTransGen (state.graph.EdgePast .forward region) root entrant) :
      Legal config state (.duplicate region outside)
  | cut {source target other : Nat} {reason : CutReason} (all : state.graph.AllReached)
      (live : state.graph.isLive source = true) (edge : target ∈ state.graph.exits source)
      (different : other ≠ source) (entering : target ∈ state.graph.successors other)
      (ahead : Relation.ReflTransGen (state.graph.EdgePast .forward target) root other) :
      Legal config state (.cut ⟨source, target, reason⟩)

/-! ## Choosing one of several -/

/-- A fold that keeps one of the items it has seen. -/
theorem foldl_keeps {ι : Type} (prefer : Option ι → ι → Option ι)
    (first : ∀ x, prefer none x = some x)
    (keeps : ∀ best x, prefer (some best) x = some best ∨ prefer (some best) x = some x)
    (items : List ι) :
    (items = [] ∧ items.foldl prefer none = none) ∨
      ∃ x ∈ items, items.foldl prefer none = some x := by
  have from_best (best : ι) (items : List ι) :
      ∃ x ∈ best :: items, items.foldl prefer (some best) = some x := by
    induction items generalizing best with
    | nil => exact ⟨best, by simp, rfl⟩
    | cons y rest inductionHypothesis =>
        rw [List.foldl_cons]
        rcases keeps best y with same | replaced
        · rw [same]
          obtain ⟨x, member, result⟩ := inductionHypothesis best
          refine ⟨x, ?_, result⟩
          simp only [List.mem_cons] at member ⊢
          tauto
        · rw [replaced]
          obtain ⟨x, member, result⟩ := inductionHypothesis y
          exact ⟨x, List.mem_cons_of_mem _ member, result⟩
  cases items with
  | nil => exact .inl ⟨rfl, rfl⟩
  | cons y rest =>
      rw [List.foldl_cons, first]
      exact .inr (from_best y rest)

theorem sidewaysEdge?_eq_some {graph : RegionGraph} {analysis : Analysis} {source target : Nat}
    (found : graph.sidewaysEdge? analysis = some (source, target)) :
    source ∈ analysis.postorder ∧ target ∈ graph.exits source ∧
      analysis.descends source target = true ∧ analysis.dominates target source = false := by
  unfold RegionGraph.sidewaysEdge? at found
  dsimp only at found
  rcases foldl_keeps (RegionGraph.preferEdge analysis) (fun _ => rfl)
    (fun best x => by
      unfold RegionGraph.preferEdge
      dsimp only
      split <;> simp) _ with ⟨_, none⟩ | ⟨edge, member, result⟩
  · rw [none] at found
    cases found
  · rw [result] at found
    cases found
    obtain ⟨origin, isTried, isEdge⟩ := List.mem_flatMap.mp member
    obtain ⟨exit, isExit, same⟩ := List.mem_map.mp isEdge
    cases same
    obtain ⟨edge, sideways⟩ := List.mem_filter.mp isExit
    unfold RegionGraph.entersSideways at sideways
    simp only [Bool.and_eq_true, Bool.not_eq_true'] at sideways
    exact ⟨isTried, edge, sideways.1, sideways.2⟩

theorem smallestLoop?_cases (graph : RegionGraph) (analysis : Analysis) :
    (graph.smallestLoop? analysis = none ∧
      ∀ head ∈ analysis.postorder, graph.naturalLoop? analysis head = none) ∨
    ∃ head ∈ analysis.postorder, ∃ loop, graph.naturalLoop? analysis head = some loop ∧
      graph.smallestLoop? analysis = some loop := by
  have chosen : ∃ prefer : Option NaturalLoop → NaturalLoop → Option NaturalLoop,
      graph.smallestLoop? analysis =
        (analysis.postorder.filterMap (graph.naturalLoop? analysis)).foldl prefer none ∧
      (∀ x, prefer none x = some x) ∧
      ∀ best x, prefer (some best) x = some best ∨ prefer (some best) x = some x := by
    refine ⟨_, rfl, fun _ => rfl, fun best x => ?_⟩
    dsimp only
    split <;> simp
  obtain ⟨prefer, isChosen, first, keeps⟩ := chosen
  rw [isChosen]
  rcases foldl_keeps prefer first keeps _ with ⟨none, result⟩ | ⟨loop, member, result⟩
  · exact .inl ⟨result, List.filterMap_eq_nil_iff.mp none⟩
  · obtain ⟨head, isTried, isLoop⟩ := List.mem_filterMap.mp member
    exact .inr ⟨head, isTried, loop, isLoop, result⟩

/-! ## Where an action comes from -/

/-- Where a chosen action comes from. -/
inductive Choice (config : Config) (state : State) : Action → Prop where
  | prune (some_stray : state.strays (Analysis.ofGraph state.graph) ≠ []) :
      Choice config state (.prune (state.strays (Analysis.ofGraph state.graph)))
  | collapse {v : Nat} {collapse : Collapse}
      (no_stray : state.strays (Analysis.ofGraph state.graph) = [])
      (tried : v ∈ (Analysis.ofGraph state.graph).postorder)
      (found : state.graph.cyclic? config v = some collapse ∨
        state.graph.compound? config state.labels v = some collapse ∨
        state.graph.acyclic? config v = some collapse) :
      Choice config state (.collapse collapse)
  | duplicate {source target : Nat}
      (no_stray : state.strays (Analysis.ofGraph state.graph) = [])
      (sideways : state.graph.sidewaysEdge? (Analysis.ofGraph state.graph) =
        some (source, target))
      (few : state.duplicated.length < config.maxDuplications) :
      Choice config state (.duplicate target
        (state.graph.outsiders (Analysis.ofGraph state.graph) target))
  | sideways {source target : Nat}
      (no_stray : state.strays (Analysis.ofGraph state.graph) = [])
      (sideways : state.graph.sidewaysEdge? (Analysis.ofGraph state.graph) =
        some (source, target)) :
      Choice config state (.cut ⟨source, target, .irreducible⟩)
  | loop {head : Nat} {loop : NaturalLoop} {cut : Cut}
      (no_stray : state.strays (Analysis.ofGraph state.graph) = [])
      (tried : head ∈ (Analysis.ofGraph state.graph).postorder)
      (is_loop : state.graph.naturalLoop? (Analysis.ofGraph state.graph) head = some loop)
      (found : state.graph.loopCut? (Analysis.ofGraph state.graph) loop = some cut) :
      Choice config state (.cut cut)
  | join {source target : Nat}
      (no_stray : state.strays (Analysis.ofGraph state.graph) = [])
      (found : (state.graph.joinEdge? (Analysis.ofGraph state.graph) fun _ => true) =
        some (source, target)) :
      Choice config state (.cut ⟨source, target, .join⟩)

section Choice

variable {config : Config} {state : State}

theorem rule_of_collapse? {analysis : Analysis} {collapse : Collapse}
    (found : state.collapse? config analysis = some collapse) :
    ∃ v ∈ analysis.postorder, state.graph.cyclic? config v = some collapse ∨
      state.graph.compound? config state.labels v = some collapse ∨
      state.graph.acyclic? config v = some collapse := by
  unfold State.collapse? at found
  dsimp only at found
  split at found
  · rename_i cyclic
    cases found
    obtain ⟨v, tried, isFound⟩ := List.exists_of_findSome?_eq_some cyclic
    exact ⟨v, tried, .inl isFound⟩
  · split at found
    · rename_i compound
      cases found
      obtain ⟨v, tried, isFound⟩ := List.exists_of_findSome?_eq_some compound
      exact ⟨v, tried, .inr (.inl isFound)⟩
    · obtain ⟨v, tried, isFound⟩ := List.exists_of_findSome?_eq_some found
      exact ⟨v, tried, .inr (.inr isFound)⟩

theorem choice_of_resolve? (noStray : state.strays (Analysis.ofGraph state.graph) = [])
    {action : Action}
    (found : state.resolve? config (Analysis.ofGraph state.graph) = some action) :
    Choice config state action := by
  unfold resolve? at found
  dsimp only at found
  split at found
  · rename_i source target sideways
    split at found
    · rename_i duplicable
      cases found
      unfold RegionGraph.isDuplicable at duplicable
      simp only [Bool.and_eq_true, decide_eq_true_eq] at duplicable
      exact .duplicate noStray sideways duplicable.1.1
    · cases found
      exact .sideways noStray sideways
  · split at found
    · rename_i loop isSmallest
      rcases smallestLoop?_cases state.graph (Analysis.ofGraph state.graph) with
        ⟨none, _⟩ | ⟨head, tried, loop', isLoop, smallest⟩
      · rw [none] at isSmallest
        cases isSmallest
      · rw [smallest] at isSmallest
        cases isSmallest
        obtain ⟨cut, isCut, rfl⟩ := Option.map_eq_some_iff.mp found
        exact .loop noStray tried isLoop isCut
    · obtain ⟨⟨source, target⟩, isJoin, rfl⟩ := Option.map_eq_some_iff.mp found
      exact .join noStray isJoin

theorem choice_of_choose {action : Action} (chosen : state.choose config = some action) :
    Choice config state action := by
  unfold choose at chosen
  dsimp only at chosen
  split at chosen
  · rename_i noStray
    split at chosen
    · rename_i collapse found
      cases chosen
      obtain ⟨v, tried, isFound⟩ := rule_of_collapse? found
      exact .collapse noStray tried isFound
    · exact choice_of_resolve? noStray chosen
  · rename_i someStray
    cases chosen
    exact .prune someStray

end Choice

/-! ## Edges to cut -/

section Edges

variable {graph : RegionGraph} {analysis : Analysis} {source target : Nat}

theorem joinEdge?_eq_some {within : Nat → Bool}
    (found : graph.joinEdge? analysis within = some (source, target)) :
    target ∈ analysis.postorder ∧
      source ∈ (graph.entrants target).filter (fun p => !analysis.dominates target p) ∧
      2 ≤ ((graph.entrants target).filter fun p => !analysis.dominates target p).length ∧
      analysis.dominators.idom? target ≠ some source := by
  unfold RegionGraph.joinEdge? at found
  obtain ⟨v, isTried, chosen⟩ := List.exists_of_findSome?_eq_some found
  split at chosen
  · cases chosen
  dsimp only at chosen
  split at chosen
  · cases chosen
  rename_i several
  obtain ⟨p, isFound, same⟩ := Option.map_eq_some_iff.mp chosen
  cases same
  have isAhead := List.mem_of_find?_eq_some isFound
  have notIdom := List.find?_some isFound
  rw [Analysis.descending, mem_sortBy] at isAhead
  exact ⟨isTried, isAhead, Nat.not_lt.mp several, by simpa using notIdom⟩

theorem extraExit?_eq_some {loop : NaturalLoop}
    (found : graph.extraExit? analysis loop = some (source, target)) :
    source ∈ loop.body ∧ target ∈ graph.exits source ∧
      graph.staysReachable analysis source target = true := by
  unfold RegionGraph.extraExit? at found
  dsimp only at found
  split at found
  · cases found
  have isExit := List.mem_of_find?_eq_some found
  have safe := List.find?_some found
  simp only [Bool.and_eq_true] at safe
  obtain ⟨origin, inBody, isEdge⟩ := List.mem_flatMap.mp isExit
  obtain ⟨exit, isTarget, same⟩ := List.mem_map.mp isEdge
  cases same
  rw [Analysis.ascending, mem_sortBy] at inBody
  exact ⟨inBody, (List.mem_filter.mp isTarget).1, safe.2⟩

/-- The edge of a loop that is cut is an exit, an edge back to the header, or leads to a
join. -/
theorem loopCut?_eq_some {loop : NaturalLoop} {cut : Cut}
    (found : graph.loopCut? analysis loop = some cut) :
    graph.extraExit? analysis loop = some (cut.source, cut.target) ∨
      (cut.source ∈ loop.latches ∧ cut.target = loop.head) ∨
      ∃ within, graph.joinEdge? analysis within = some (cut.source, cut.target) := by
  unfold RegionGraph.loopCut? at found
  split at found
  · rename_i extra
    cases found
    exact .inl extra
  · split at found
    · cases found
    · rename_i latches
      cases found
      exact .inr (.inl ⟨by rw [latches]; simp, rfl⟩)
    · rename_i latches
      split at found
      · rename_i join
        cases found
        exact .inr (.inr ⟨_, join⟩)
      · cases found
        exact .inr (.inl ⟨by rw [latches]; simp, rfl⟩)

/-- A loop with latches always offers an edge to cut. -/
theorem exists_loopCut? {loop : NaturalLoop} (someLatch : loop.latches ≠ []) :
    ∃ cut, graph.loopCut? analysis loop = some cut := by
  unfold RegionGraph.loopCut?
  split
  · exact ⟨_, rfl⟩
  · split
    · rename_i none
      exact absurd none someLatch
    · exact ⟨_, rfl⟩
    · split <;> exact ⟨_, rfl⟩

/-- An edge that leaves a vertex other than the root and does not return. -/
def Departs (graph : RegionGraph) (source target : Nat) : Prop :=
  source ≠ root ∧ target ∈ graph.exits source

theorem Departs.isLive (wellFormed : graph.WellFormed) (departs : Departs graph source target) :
    graph.isLive source = true ∧ graph.isLive target = true :=
  ⟨(wellFormed.ends (RegionGraph.mem_exits.mp departs.2).1).1.resolve_left departs.1,
    wellFormed.isLive_of_mem_exits departs.2⟩

variable (consistent : graph.Consistent)
include consistent

/-- Whatever leads into a loop body belongs to it, the root apart. -/
theorem mem_gatherBody {holds : Nat → Prop}
    (enters : ∀ {p v}, p ≠ root → v ∈ graph.successors p → holds p) (fuel : Nat)
    {body pending : List Nat} (all : ∀ v ∈ body, holds v) :
    ∀ v ∈ graph.gatherBody fuel body pending, holds v := by
  induction fuel generalizing body pending with
  | zero => simpa [RegionGraph.gatherBody] using all
  | succ fuel inductionHypothesis =>
      cases pending with
      | nil => simpa [RegionGraph.gatherBody] using all
      | cons next pending =>
          rw [RegionGraph.gatherBody]
          refine inductionHypothesis fun v member => ?_
          rcases List.mem_append.mp member with old | fresh
          · exact all v old
          · obtain ⟨isEntrant, proper⟩ := List.mem_filter.mp fresh
            simp only [Bool.and_eq_true, bne_iff_ne] at proper
            exact enters proper.1 ((RegionGraph.mem_entrants consistent).mp isEntrant)

/-- A natural loop: its latches lead back to the header, which dominates them, and every
other member of its body has an edge. -/
theorem naturalLoop?_cases {head : Nat} {loop : NaturalLoop}
    (found : graph.naturalLoop? analysis head = some loop) :
    loop.head = head ∧ loop.latches ≠ [] ∧
      (∀ latch ∈ loop.latches, head ∈ graph.successors latch ∧ latch ≠ root ∧
        analysis.dominates head latch = true) ∧
      ∀ v ∈ loop.body, v = head ∨ v ≠ root ∧ ∃ t, t ∈ graph.successors v := by
  unfold RegionGraph.naturalLoop? at found
  dsimp only at found
  split at found
  · cases found
  rename_i someLatch
  cases found
  have isLatch {latch : Nat} (member : latch ∈ (graph.entrants head).filter fun p =>
      p != root && analysis.dominates head p) :
      head ∈ graph.successors latch ∧ latch ≠ root ∧ analysis.dominates head latch = true := by
    obtain ⟨isEntrant, proper⟩ := List.mem_filter.mp member
    simp only [Bool.and_eq_true, bne_iff_ne] at proper
    exact ⟨(RegionGraph.mem_entrants consistent).mp isEntrant, proper⟩
  refine ⟨rfl, ?_, ?_, ?_⟩
  · intro none
    have empty := length_sortBy (fun u v => decide (analysis.order u ≤ analysis.order v))
      ((graph.entrants head).filter fun p => p != root && analysis.dominates head p)
    rw [show sortBy _ _ = [] from none] at empty
    exact someLatch (List.isEmpty_iff.mpr (List.length_eq_zero_iff.mp empty.symm))
  · intro latch member
    rw [Analysis.ascending, mem_sortBy] at member
    exact isLatch member
  · refine mem_gatherBody consistent (fun notRoot edge => .inr ⟨notRoot, _, edge⟩) _
      fun v member => ?_
    rcases List.mem_cons.mp member with isHead | inner
    · exact .inl isHead
    · obtain ⟨edge, notRoot, _⟩ := isLatch (List.mem_filter.mp inner).1
      exact .inr ⟨notRoot, head, edge⟩

/-- A join is not cut off from the root: the root would be its immediate dominator. -/
theorem departs_of_joinEdge? {within : Nat → Bool}
    (found : graph.joinEdge? (Analysis.ofGraph graph) within = some (source, target)) :
    Departs graph source target := by
  obtain ⟨tried, isAhead, _, notIdom⟩ := joinEdge?_eq_some found
  obtain ⟨_, notRoot, notEnd⟩ := (Analysis.mem_postorder consistent).mp tried
  have edge := (RegionGraph.mem_entrants consistent).mp (List.mem_filter.mp isAhead).1
  refine ⟨?_, RegionGraph.mem_exits.mpr ⟨edge, notEnd⟩⟩
  rintro rfl
  exact notIdom (Analysis.idom?_of_root_edge consistent edge notRoot)

theorem departs_of_loopCut? {head : Nat} {loop : NaturalLoop} {cut : Cut}
    (tried : head ∈ (Analysis.ofGraph graph).postorder)
    (isLoop : graph.naturalLoop? (Analysis.ofGraph graph) head = some loop)
    (found : graph.loopCut? (Analysis.ofGraph graph) loop = some cut) :
    Departs graph cut.source cut.target := by
  obtain ⟨_, notRoot, notEnd⟩ := (Analysis.mem_postorder consistent).mp tried
  obtain ⟨rfl, _, isLatch, inBody⟩ := naturalLoop?_cases consistent isLoop
  rcases loopCut?_eq_some found with extra | ⟨latch, isHead⟩ | ⟨within, join⟩
  · obtain ⟨member, isExit, _⟩ := extraExit?_eq_some extra
    refine ⟨?_, isExit⟩
    rcases inBody _ member with same | ⟨notRoot', _⟩
    · rwa [same]
    · exact notRoot'
  · obtain ⟨edge, sourceNotRoot, _⟩ := isLatch _ latch
    rw [isHead]
    exact ⟨sourceNotRoot, RegionGraph.mem_exits.mpr ⟨edge, notEnd⟩⟩
  · exact departs_of_joinEdge? consistent join

theorem departs_sideways
    (found : graph.sidewaysEdge? (Analysis.ofGraph graph) = some (source, target)) :
    Departs graph source target := by
  obtain ⟨tried, isExit, _, _⟩ := sidewaysEdge?_eq_some found
  exact ⟨((Analysis.mem_postorder consistent).mp tried).2.1, isExit⟩

end Edges

section Cuts

variable {graph : RegionGraph}

/-- What makes it safe to cut an edge: it leaves a live region, and its target
has another predecessor that is reached without passing it. -/
def Cuttable (graph : RegionGraph) (source target : Nat) : Prop :=
  graph.isLive source = true ∧ target ∈ graph.exits source ∧ ∃ other, other ≠ source ∧
    target ∈ graph.successors other ∧
    Relation.ReflTransGen (graph.EdgePast .forward target) root other

variable (wellFormed : graph.WellFormed) (all : graph.AllReached)
include wellFormed all

theorem reaches_of_edge {p v : Nat} (edge : v ∈ graph.successors p) :
    graph.Reaches .forward root p := by
  rcases (wellFormed.ends edge).1 with rfl | live
  · exact .refl root
  · exact all p live

/-- A predecessor that a region does not dominate is reached without passing
it. -/
theorem walk_past_of_not_dominates {p v : Nat} (live : graph.isLive v = true)
    (edge : v ∈ graph.successors p)
    (notDominated : (Analysis.ofGraph graph).dominates v p = false) :
    Relation.ReflTransGen (graph.EdgePast .forward v) root p := by
  have avoids : ¬ graph.Dominates .forward v p := by
    intro dominates
    have := (Analysis.dominates_iff wellFormed.consistent).mpr
      ⟨all v live, reaches_of_edge wellFormed all edge, dominates⟩
    rw [notDominated] at this
    cases this
  exact (Digraph.not_dominates_iff.mp avoids).2

/-- The source of a back edge is not the place from which a loop is entered. -/
theorem cuttable_latch {latch head : Nat} (departs : Departs graph latch head)
    (dominates : (Analysis.ofGraph graph).dominates head latch = true) :
    Cuttable graph latch head := by
  obtain ⟨latchLive, live⟩ := departs.isLive wellFormed
  obtain ⟨other, entering, ahead, _⟩ := Analysis.exists_entrant wellFormed.consistent
    (all head live) (wellFormed.ne_root_of_isLive live)
  have guarded := ((Analysis.dominates_iff wellFormed.consistent).mp dominates).2.2
  refine ⟨latchLive, departs.2, other, ?_, entering, ahead⟩
  rintro rfl
  have avoids : ¬ graph.Dominates .forward head other :=
    Digraph.not_dominates_iff.mpr ⟨(wellFormed.ne_root_of_isLive live).symm, ahead⟩
  exact avoids guarded

theorem cuttable_of_joinEdge? {within : Nat → Bool} {source target : Nat}
    (found : graph.joinEdge? (Analysis.ofGraph graph) within = some (source, target)) :
    Cuttable graph source target := by
  have departs := departs_of_joinEdge? wellFormed.consistent found
  obtain ⟨sourceLive, live⟩ := departs.isLive wellFormed
  obtain ⟨_, isAhead, several, _⟩ := joinEdge?_eq_some found
  obtain ⟨other, isOther, different⟩ : ∃ other ∈ (graph.entrants target).filter fun p =>
      !(Analysis.ofGraph graph).dominates target p, other ≠ source := by
    by_contra none
    push Not at none
    have single := (RegionGraph.eq_singleton_iff
      ((RegionGraph.nodup_entrants graph target).filter _)).mpr ⟨isAhead, none⟩
    rw [single] at several
    exact absurd several (by simp)
  obtain ⟨isEntrant, notDominated⟩ := List.mem_filter.mp isOther
  have entering := (RegionGraph.mem_entrants wellFormed.consistent).mp isEntrant
  exact ⟨sourceLive, departs.2, other, different, entering,
    walk_past_of_not_dominates wellFormed all live entering (by simpa using notDominated)⟩

theorem cuttable_of_extraExit? {loop : NaturalLoop} {source target : Nat}
    (live : graph.isLive source = true)
    (found : graph.extraExit? (Analysis.ofGraph graph) loop = some (source, target)) :
    Cuttable graph source target := by
  obtain ⟨_, edge, safe⟩ := extraExit?_eq_some found
  have targetLive := wellFormed.isLive_of_mem_exits edge
  obtain ⟨other, isEntrant, stays⟩ := List.any_eq_true.mp safe
  simp only [Bool.and_eq_true, bne_iff_ne, Bool.not_eq_true'] at stays
  have entering := (RegionGraph.mem_entrants wellFormed.consistent).mp isEntrant
  exact ⟨live, edge, other, stays.1, entering,
    walk_past_of_not_dominates wellFormed all targetLive entering stays.2⟩

omit all in
/-- A loop body holds live regions only. -/
theorem isLive_of_mem_body {head : Nat} {loop : NaturalLoop} (headLive : graph.isLive head = true)
    (found : graph.naturalLoop? (Analysis.ofGraph graph) head = some loop) :
    ∀ v ∈ loop.body, graph.isLive v = true := by
  obtain ⟨_, _, _, inBody⟩ := naturalLoop?_cases wellFormed.consistent found
  intro v member
  rcases inBody v member with rfl | ⟨notRoot, t, edge⟩
  · exact headLive
  · exact (wellFormed.ends edge).1.resolve_left notRoot

theorem cuttable_of_loopCut? {head : Nat} {loop : NaturalLoop} {cut : Cut}
    (tried : head ∈ (Analysis.ofGraph graph).postorder)
    (isLoop : graph.naturalLoop? (Analysis.ofGraph graph) head = some loop)
    (found : graph.loopCut? (Analysis.ofGraph graph) loop = some cut) :
    Cuttable graph cut.source cut.target := by
  have departs := departs_of_loopCut? wellFormed.consistent tried isLoop found
  obtain ⟨rfl, _, isLatch, _⟩ := naturalLoop?_cases wellFormed.consistent isLoop
  rcases loopCut?_eq_some found with extra | ⟨latch, isHead⟩ | ⟨within, join⟩
  · exact cuttable_of_extraExit? wellFormed all (departs.isLive wellFormed).1 extra
  · rw [isHead] at departs ⊢
    exact cuttable_latch wellFormed all departs (isLatch _ latch).2.2
  · exact cuttable_of_joinEdge? wellFormed all join

theorem cuttable_sideways {source target : Nat}
    (sideways : graph.sidewaysEdge? (Analysis.ofGraph graph) = some (source, target)) :
    Cuttable graph source target := by
  obtain ⟨_, isExit, descends, _⟩ := sidewaysEdge?_eq_some sideways
  obtain ⟨sourceLive, live⟩ :=
    (departs_sideways wellFormed.consistent sideways).isLive wellFormed
  obtain ⟨other, entering, ahead, notBelow, _⟩ := Analysis.exists_entrant wellFormed.consistent
    (all target live) (wellFormed.ne_root_of_isLive live)
  refine ⟨sourceLive, isExit, other, ?_, entering, ahead⟩
  rintro rfl
  rw [notBelow] at descends
  cases descends

end Cuts

/-! ## Every chosen action -/

section Legal

variable {config : Config} {state : State} (wellFormed : state.graph.WellFormed)
include wellFormed

omit wellFormed in
theorem mem_strays (consistent : state.graph.Consistent) {r : Nat} :
    r ∈ state.strays (Analysis.ofGraph state.graph) ↔
      state.graph.isLive r = true ∧ ¬ state.graph.Reaches .forward root r := by
  have isReachable_iff : (Analysis.ofGraph state.graph).dominators.isReachable r = true ↔ _ :=
    Analysis.isReachable_iff consistent
  rw [strays, List.mem_filter, Digraph.mem_liveIndices, Bool.not_eq_true',
    ← Bool.not_eq_true, isReachable_iff]

omit wellFormed in
theorem mem_outsiders (consistent : state.graph.Consistent) {region p : Nat} :
    p ∈ state.graph.outsiders (Analysis.ofGraph state.graph) region ↔
      region ∈ state.graph.successors p ∧
        (Analysis.ofGraph state.graph).descends p region = false := by
  rw [RegionGraph.outsiders, List.mem_filter, RegionGraph.mem_entrants consistent,
    Bool.not_eq_true']

/-- What a rule finds at a region is a construct headed by it. -/
theorem matches_of_rule {v : Nat} {collapse : Collapse}
    (found : state.graph.cyclic? config v = some collapse ∨
      state.graph.compound? config state.labels v = some collapse ∨
      state.graph.acyclic? config v = some collapse) :
    RegionGraph.Matches config state.labels state.graph v collapse := by
  rcases found with cyclic | compound | acyclic
  · exact RegionGraph.matches_cyclic? cyclic
  · exact RegionGraph.matches_compound? compound
  · exact RegionGraph.matches_acyclic? wellFormed acyclic

/-- The outside predecessors of a region that is entered sideways. -/
theorem legal_duplicate (all : state.graph.AllReached) {source region : Nat}
    (sideways : state.graph.sidewaysEdge? (Analysis.ofGraph state.graph) = some (source, region))
    (few : state.duplicated.length < config.maxDuplications) :
    Legal config state (.duplicate region
      (state.graph.outsiders (Analysis.ofGraph state.graph) region)) := by
  have consistent := wellFormed.consistent
  obtain ⟨isTried, isExit, descends, notDominated⟩ := sidewaysEdge?_eq_some sideways
  have live := wellFormed.isLive_of_mem_exits isExit
  obtain ⟨entrant, entering, ahead, notBelow, _⟩ := Analysis.exists_entrant consistent
    (all region live) (wellFormed.ne_root_of_isLive live)
  refine .duplicate all few live (fun p member => ((mem_outsiders consistent).mp member).1)
    (RegionGraph.mem_exits.mp isExit).1 ?_ ?_ (Analysis.walk_of_descends consistent descends).2.2
    ((mem_outsiders consistent).mpr ⟨entering, notBelow⟩) ahead
  · intro member
    rw [((mem_outsiders consistent).mp member).2] at descends
    cases descends
  · rintro rfl
    have dominates := (Analysis.dominates_iff consistent).mpr
      ⟨all source live, all source live, Digraph.Dominates.refl source⟩
    rw [notDominated] at dominates
    cases dominates

omit wellFormed in
theorem Cuttable.legal {cut : Cut} (cuttable : Cuttable state.graph cut.source cut.target)
    (all : state.graph.AllReached) : Legal config state (.cut cut) := by
  obtain ⟨live, edge, other, different, entering, ahead⟩ := cuttable
  exact .cut all live edge different entering ahead

theorem allReached_of_strays_eq_nil
    (none : state.strays (Analysis.ofGraph state.graph) = []) : state.graph.AllReached := by
  intro v live
  by_contra unreached
  have member := (mem_strays wellFormed.consistent).mpr ⟨live, unreached⟩
  rw [none] at member
  cases member

/-- Every action that is chosen is legal. -/
theorem legal_of_choose {action : Action} (chosen : state.choose config = some action) :
    Legal config state action := by
  cases choice_of_choose chosen with
  | prune someStray => exact .prune someStray fun r => mem_strays wellFormed.consistent
  | collapse noStray tried found =>
      exact .collapse (allReached_of_strays_eq_nil wellFormed noStray)
        (wellFormed.isLive_of_mem_postorder tried).1 (matches_of_rule wellFormed found)
  | duplicate noStray sideways few =>
      exact legal_duplicate wellFormed (allReached_of_strays_eq_nil wellFormed noStray) sideways few
  | sideways noStray sideways =>
      have all := allReached_of_strays_eq_nil wellFormed noStray
      exact Cuttable.legal (cuttable_sideways wellFormed all sideways) all
  | loop noStray tried isLoop found =>
      have all := allReached_of_strays_eq_nil wellFormed noStray
      exact (cuttable_of_loopCut? wellFormed all tried isLoop found).legal all
  | join noStray found =>
      have all := allReached_of_strays_eq_nil wellFormed noStray
      exact Cuttable.legal (cuttable_of_joinEdge? wellFormed all found) all

end Legal

end State

end FlowRegions
