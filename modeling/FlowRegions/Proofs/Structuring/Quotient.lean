import FlowRegions.Proofs.Structuring.Rootless

/-!
Contract: a collapse replaces its members by one vertex and changes no other
flow.

The facts come from `Fits` and `Collapsed`, but for one: that the new vertex
returns by a single edge.  A sequence takes over the edges of its last region as
they are, so this holds because every region returns by at most one edge, in
every state of a run.

Owns:
- `RegionGraph.Quotient`, the edges behind a collapse in terms of the edges
  before it;
- `RegionGraph.ReturnsOnce`, with its step and run lemmas;
- `Structuring.collapse_quotient`, that the collapses of every run are
  quotients.
-/

namespace FlowRegions

open FlowRegions.Digraph (root terminator)

namespace RegionGraph

variable {config : Config} {labels : List Nat} {graph changed : RegionGraph}
  {collapse : Collapse} {v new : Nat}

/-- The members of a region become one vertex. -/
structure Quotient (graph : RegionGraph) (members : List Nat) (entry new : Nat)
    (changed : RegionGraph) : Prop where
  /-- Edges from outside enter the members at the entry. -/
  single : entry ∈ members ∧
    ∀ {p m}, p ∉ members → m ∈ members → m ∈ graph.successors p → m = entry
  /-- They lead to the new vertex, at the position they had. -/
  entering : ∀ {p i : Nat}, p ∉ members → (graph.successors p)[i]? = some entry →
    (changed.successors p)[i]? = some new
  /-- Other edges from outside the members stay as they are. -/
  staying : ∀ {p}, p ∉ members → p ≠ new →
    (changed.successors p).length = (graph.successors p).length ∧
      ∀ {i t : Nat}, (graph.successors p)[i]? = some t → t ≠ entry →
        (changed.successors p)[i]? = some t
  /-- The new vertex leads where the members lead. -/
  leading : ∀ {t}, t ≠ new → t ≠ terminator →
    (t ∈ changed.successors new ↔ t ∉ members ∧ ∃ m ∈ members, t ∈ graph.successors m)
  /-- It returns when a member returns, by one edge. -/
  returning : (terminator ∈ changed.successors new ↔
      ∃ m ∈ members, terminator ∈ graph.successors m) ∧
    (changed.successors new).count terminator ≤ 1

/-! ## Edges to the terminator -/

def ReturnsOnce (graph : RegionGraph) : Prop :=
  ∀ v, (graph.successors v).count terminator ≤ 1

/-- Turning a target keeps the number of edges to the terminator. -/
theorem count_terminator_map_turn {old new : Nat} (oldReal : old ≠ terminator)
    (newReal : new ≠ terminator) (targets : List Nat) :
    (targets.map (turn old new)).count terminator = targets.count terminator := by
  rw [List.count_eq_countP, List.countP_map, List.count_eq_countP]
  apply List.countP_congr
  intro t _
  rw [Function.comp_apply, beq_iff_eq, beq_iff_eq]
  by_cases isOld : t = old
  · rw [isOld, turn_old]
    exact iff_of_false newReal oldReal
  · rw [turn_of_ne isOld]

theorem count_collapsedTargets (entryReal : collapse.entry ≠ terminator)
    (newReal : new ≠ terminator) (once : collapse.out.count terminator ≤ 1) :
    (collapsedTargets collapse new).count terminator ≤ 1 := by
  have turned := count_terminator_map_turn entryReal newReal collapse.out
  unfold collapsedTargets
  dsimp only
  change (collapse.out.map _).count terminator = _ at turned
  unfold turn at turned
  split
  · rename_i appends
    simp only [Bool.and_eq_true, Bool.not_eq_true', List.contains_eq_mem,
      decide_eq_false_iff_not] at appends
    rw [List.count_append, turned, List.count_eq_zero.mpr appends.2]
    simp
  · rwa [turned]

/-- What a rule leads to has at most one edge to the terminator: a sequence has
those of its last region, every other composite has none. -/
theorem Matches.count_out (once : graph.ReturnsOnce)
    (found : Matches config labels graph v collapse) : collapse.out.count terminator ≤ 1 := by
  cases found with
  | sequence => exact once _
  | compound foldable branch =>
      obtain ⟨firstTarget, secondTarget, _⟩ := foldable.isTarget branch
      rw [List.count_eq_zero.mpr]
      · exact Nat.zero_le 1
      · simpa using ⟨(mem_branches.mp firstTarget).2.symm, (mem_branches.mp secondTarget).2.symm⟩
  | ifElse _ _ _ _ _ _ atMostOne _ => exact Nat.le_trans List.count_le_length atMostOne
  | @switch follow =>
      refine Nat.le_trans List.count_le_length ?_
      cases follow <;> simp
  | forever | selfLoop | whileLoop | forLoop | doWhile | ifThen =>
      exact Nat.le_trans List.count_le_length (by simp)

/-! ### Steps -/

section Effects

variable (wellFormed : graph.WellFormed) (once : graph.ReturnsOnce)
include wellFormed once

theorem Collapsed.keeps_returnsOnce (live : graph.isLive v = true)
    (found : Matches config labels graph v collapse)
    (collapsed : Collapsed graph collapse new changed) : changed.ReturnsOnce := by
  have fits := found.fits wellFormed live
  have entryReal := wellFormed.ne_terminator_of_isLive (fits.live _ fits.entry_mem)
  have newReal := collapsed.new_real wellFormed
  intro u
  by_cases isNew : u = new
  · rw [isNew, collapsed.successors_new]
    exact count_collapsedTargets entryReal newReal (found.count_out once)
  rw [collapsed.successors_old isNew]
  split
  · exact Nat.zero_le 1
  · rw [count_terminator_map_turn entryReal newReal]
    exact once u

theorem Severed.keeps_returnsOnce {source target : Nat}
    (severed : Severed graph source target changed) (targetLive : graph.isLive target = true) :
    changed.ReturnsOnce := by
  have jumpReal : graph.size ≠ terminator := by
    have := wellFormed.consistent.two_le_of_isLive targetLive
    have := Digraph.lt_size_of_isLive targetLive
    simp only [terminator]
    omega
  intro u
  rw [severed.successors_eq]
  split
  · rw [count_terminator_map_turn (wellFormed.ne_terminator_of_isLive targetLive) jumpReal]
    exact once u
  · exact once u

omit wellFormed in
theorem Pruned.keeps_returnsOnce {regions : List Nat} (pruned : Pruned graph regions changed) :
    changed.ReturnsOnce := by
  intro u
  rw [pruned.successors_eq]
  split
  · exact Nat.zero_le 1
  · exact Nat.le_trans (List.Sublist.count_le _ List.filter_sublist) (once u)

theorem Copied.keeps_returnsOnce {outside : List Nat} (copied : Copied graph v outside changed)
    (live : graph.isLive v = true) : changed.ReturnsOnce := by
  have copyReal : graph.size ≠ terminator := by
    have := wellFormed.consistent.two_le_of_isLive live
    have := Digraph.lt_size_of_isLive live
    simp only [terminator]
    omega
  intro u
  by_cases isCopy : u = graph.size
  · have same : (changed.successors graph.size).count terminator =
        (graph.successors v).count terminator := by
      have stands := copied.successors_copy
      generalize graph.successors v = left at stands
      generalize changed.successors graph.size = right at stands
      induction stands with
      | nil => rfl
      | cons stands _ inductionHypothesis =>
          rw [List.count_cons, List.count_cons, inductionHypothesis,
            stands.beq_terminator wellFormed]
    rw [isCopy, same]
    exact once v
  rw [copied.successors_old isCopy]
  split
  · rw [count_terminator_map_turn (wellFormed.ne_terminator_of_isLive live) copyReal]
    exact once u
  · exact once u

end Effects

/-- The graph a run starts from: no vertex branches and returns. -/
theorem Taken.returnsOnce {α : Type} {input : Digraph α} {entry : Nat}
    (taken : Taken input entry input.size graph) : graph.ReturnsOnce := by
  intro v
  rw [taken.successors_eq]
  split
  · exact List.count_le_length
  · split
    · rename_i bounds
      by_cases returns : terminator ∈ input.successors v
      · exact Nat.le_trans List.count_le_length ((taken.accepted bounds.1 bounds.2).2 returns)
      · rw [List.count_eq_zero.mpr returns]
        exact Nat.zero_le 1
    · exact Nat.zero_le 1

/-! ## Collapses -/

/-- A collapse that fits is a quotient. -/
theorem Collapsed.quotient (wellFormed : graph.WellFormed) (fits : graph.Fits collapse)
    (collapsed : Collapsed graph collapse new changed) (once : changed.ReturnsOnce) :
    Quotient graph collapse.members collapse.entry new changed := by
  have later := collapsed.size_le
  have isOld {p t : Nat} (edge : t ∈ graph.successors p) : p ≠ new := by
    have := Digraph.lt_size_of_mem_neighbours edge
    omega
  have turned {p : Nat} (outside : p ∉ collapse.members) (notNew : p ≠ new) :
      changed.successors p = (graph.successors p).map (turn collapse.entry new) := by
    rw [collapsed.successors_old notNew, if_neg outside]
  refine ⟨⟨fits.entry_mem, ?_⟩, ?_, ?_, ?_, ?_, once new⟩
  · intro p m outside member edge
    by_contra notEntry
    exact outside (fits.single member notEntry edge)
  · intro p i outside found
    rw [turned outside (isOld (List.mem_of_getElem? found)), List.getElem?_map, found]
    exact congrArg some (turn_old _ _)
  · intro p outside notNew
    rw [turned outside notNew]
    refine ⟨List.length_map _, ?_⟩
    intro i t found notEntry
    rw [List.getElem?_map, found]
    exact congrArg some (turn_of_ne notEntry)
  · intro t notNew notEnd
    constructor
    · intro edge
      rcases collapsed.successors_new_cases fits edge with
        isNew | ⟨isEnd, _⟩ | ⟨outside, _, leads⟩
      · exact absurd isNew notNew
      · exact absurd isEnd notEnd
      · exact ⟨outside, leads⟩
    · rintro ⟨outside, m, member, edge⟩
      have isOut := (fits.covers m member t (mem_exits.mpr ⟨edge, notEnd⟩)).resolve_left outside
      rw [collapsed.successors_new, mem_collapsedTargets]
      refine .inl ⟨t, isOut, turn_of_ne ?_⟩
      rintro rfl
      exact outside fits.entry_mem
  · constructor
    · intro edge
      rcases collapsed.successors_new_cases fits edge with
        isNew | ⟨_, leads⟩ | ⟨_, _, leads⟩
      · exact absurd isNew.symm (collapsed.new_real wellFormed)
      · exact leads
      · exact leads
    · rintro ⟨m, member, edge⟩
      rw [collapsed.successors_new, mem_collapsedTargets]
      have entryReal := wellFormed.ne_terminator_of_isLive (fits.live _ fits.entry_mem)
      by_cases isOut : terminator ∈ collapse.out
      · exact .inl ⟨terminator, isOut, turn_of_ne entryReal.symm⟩
      · have returns := (fits.returns_iff.mpr ⟨m, member, returns_iff.mpr edge⟩).resolve_left isOut
        exact .inr ⟨rfl, returns, isOut⟩

end RegionGraph

/-! ## Runs -/

/-- A legal step keeps that every region returns by at most one edge. -/
theorem State.Legal.keeps_returnsOnce {config : Config} {state : State} {action : Action}
    (wellFormed : state.graph.WellFormed) (once : state.graph.ReturnsOnce)
    (legal : Legal config state action) : (state.perform action).1.graph.ReturnsOnce := by
  cases legal with
  | prune someStray strayIff =>
      exact (RegionGraph.pruned_isolateAll wellFormed.consistent _).keeps_returnsOnce once
  | collapse all live found =>
      exact (RegionGraph.collapsed_collapse wellFormed
        (found.fits wellFormed live)).keeps_returnsOnce wellFormed once live found
  | duplicate all few live entering =>
      exact (RegionGraph.copied_giveCopy wellFormed.consistent (Digraph.lt_size_of_isLive live)
        entering).keeps_returnsOnce wellFormed once live
  | cut all live edge =>
      exact (RegionGraph.severed_redirect wellFormed.consistent _ _).keeps_returnsOnce wellFormed
        once (wellFormed.isLive_of_mem_exits edge)

theorem State.Proper.returnsOnce {config : Config} {targets : Nat → List Nat}
    {start state : State} (proper : Proper config targets start) (once : start.graph.ReturnsOnce)
    (reached : Reached config start state) : state.graph.ReturnsOnce := by
  induction reached with
  | refl => exact once
  | tail before steps inductionHypothesis =>
      obtain ⟨_, action, chosen, rfl⟩ := steps
      have wellFormed := (proper.reached before).wellFormed
      exact (legal_of_choose wellFormed chosen).keeps_returnsOnce wellFormed inductionHypothesis

namespace Structuring

variable {α : Type} {config : Config} {input : Digraph α} {structuring : Structuring}

/-- Every collapse of a run from an accepted graph whose edges join vertices that
are not detached is an exact quotient: the members are entered at one of them, the
new vertex is entered where that one was and leads where the members lead, and all
other edges stay as they are. -/
theorem collapse_quotient (built : input.Built)
    (attached : ∀ {u v}, v ∈ input.successors u →
      input.isDetached u = false ∧ input.isDetached v = false)
    (accepted : Structuring.ofGraph config input = .ok structuring)
    {state : State} (reached : State.Reached config structuring.state state)
    {collapse : Collapse} (chosen : state.choose config = some (.collapse collapse)) :
    RegionGraph.Quotient state.graph collapse.members collapse.entry
      (state.graph.collapse collapse).1 (state.perform (.collapse collapse)).1.graph := by
  rcases cases_ofGraph ⟨built.consistent, attached⟩ accepted with sound | ⟨rootless, _⟩
  · obtain ⟨_, _, _, _, ⟨entry, entries, taken⟩, proper⟩ := proper_ofGraph sound accepted
    have wellFormed := (proper.reached reached).wellFormed
    have once := proper.returnsOnce taken.returnsOnce reached
    have legal := State.legal_of_choose wellFormed chosen
    have after := legal.keeps_returnsOnce wellFormed once
    cases legal with
    | collapse all live found =>
        have fits := found.fits wellFormed live
        exact (RegionGraph.collapsed_collapse wellFormed fits).quotient wellFormed fits after
  · -- A rootless run prunes and does nothing else.
    have prunes := (rootless.reached reached).1.prunes_of_choose chosen
    cases prunes

def earlyReturn : Digraph Unit :=
  Digraph.ofEdges 4 [(0, 2), (2, 3), (3, 4), (3, 5), (4, 1), (5, 2)]

/-- The arms are collapsed first: what led to their head leads to the new vertex,
which goes on to the loop or returns. -/
theorem collapse_quotient_early_return :
    ∃ structuring collapse, Structuring.ofGraph {} earlyReturn = .ok structuring ∧
      structuring.state.choose {} = some (.collapse collapse) ∧
      collapse.node.kind = .ifElse ∧ (structuring.state.graph.collapse collapse).1 = 6 ∧
      RegionGraph.Quotient structuring.state.graph [3, 4, 5] 3 6
        (structuring.state.perform (.collapse collapse)).1.graph := by
  have built : earlyReturn.Built := Digraph.built_ofEdges (by decide)
  have first : ((Structuring.ofGraph {} earlyReturn).toOption.bind fun structuring =>
      structuring.state.choose {}) = some (.collapse
        { members := [3, 4, 5], entry := 3
          node := { shape := .ifElse 3 4 5, cond := some (.test 3) }
          out := [2], returns := true }) := by decide +kernel
  have fresh : ((Structuring.ofGraph {} earlyReturn).toOption.map fun structuring =>
      structuring.state.graph.size) = some 6 := by decide +kernel
  cases accepted : Structuring.ofGraph {} earlyReturn with
  | error rejected =>
      rw [accepted] at first
      cases first
  | ok structuring =>
      rw [accepted] at first fresh
      have new : structuring.state.graph.size = 6 := Option.some.inj fresh
      have quotient := collapse_quotient built (RegionGraph.attached_of_lt (by decide +kernel))
        accepted .refl first
      change RegionGraph.Quotient _ _ _ structuring.state.graph.size _ at quotient
      rw [new] at quotient
      exact ⟨structuring, _, rfl, first, rfl, new, quotient⟩

end Structuring

end FlowRegions
