import FlowRegions.Proofs.Structuring.Reducible
import Mathlib.Data.Finset.Max

/-!
Contract: the test for second entries into loops is exact.

An edge that retreats in the depth-first tree and enters a vertex that does not
dominate its source is found exactly when some cycle has no head.  Which tree the
order of the edges produces does not matter: of every cycle the vertex with the
least number has the rest of the cycle below it, so that the edge of the cycle
back to it retreats, and as soon as it dominates the source of that edge it
dominates the whole cycle.

Owns:
- `Analysis.StepsUp`, the depth-first tree of an analysis by its parents;
- `Digraph.Cycle.exists_retreat`, the retreating edge of a cycle;
- `RegionGraph.sidewaysEdge?_eq_none_iff` and `Structuring.second_entries_exact`.
-/

namespace FlowRegions

open FlowRegions.Digraph (root terminator)

namespace Analysis

/-! ## The depth-first tree -/

/-- From a vertex other than the root to its parent in the depth-first tree. -/
def StepsUp (analysis : Analysis) (v parent : Nat) : Prop :=
  v ≠ root ∧ analysis.dominators.numbering.parentOf v = parent

section Tree

variable {graph : RegionGraph} (consistent : graph.Consistent) {u v w : Nat}
include consistent

/-- A proper descendant leads up to its ancestor. -/
theorem stepsUp_of_descends (descends : (ofGraph graph).descends v u = true)
    (different : u ≠ v) : Relation.TransGen (ofGraph graph).StepsUp v u := by
  have numbers := Analysis.numbers consistent
  obtain ⟨uReached, vReached, -⟩ := walk_of_descends consistent descends
  obtain ⟨i, iWithin, rfl⟩ := exists_number consistent uReached
  obtain ⟨j, jWithin, rfl⟩ := exists_number consistent vReached
  have ancestor := (descends_vertexAt consistent iWithin jWithin).mp descends
  clear descends uReached vReached
  induction ancestor with
  | self => exact absurd rfl different
  | @above j positive rest inductionHypothesis =>
      have falls := numbers.tree.parent_lt positive jWithin
      have step : (ofGraph graph).StepsUp ((ofGraph graph).dominators.numbering.vertexAt j)
          ((ofGraph graph).dominators.numbering.vertexAt
            ((ofGraph graph).dominators.numbering.parentNumber j)) := by
        refine ⟨fun isRoot => ?_, (numbers.vertexAt_parentNumber jWithin).symm⟩
        have isStart := numbers.vertexAt_injective jWithin numbers.nonempty
          (isRoot.trans numbers.vertexAt_zero.symm)
        omega
      by_cases direct : i = (ofGraph graph).dominators.numbering.parentNumber j
      · exact direct ▸ .single step
      · have within := falls.trans jWithin
        exact .head step (inductionHypothesis within fun same =>
          direct (numbers.vertexAt_injective iWithin within same))

/-- An edge that does not go to a lesser number does not leave a subtree. -/
theorem descends_of_edge (descends : (ofGraph graph).descends v u = true)
    (edge : w ∈ graph.successors v)
    (low : (ofGraph graph).order u ≤ (ofGraph graph).order w) :
    (ofGraph graph).descends w u = true := by
  obtain ⟨uReached, vReached, _⟩ := walk_of_descends consistent descends
  obtain ⟨i, iWithin, rfl⟩ := exists_number consistent uReached
  obtain ⟨j, jWithin, rfl⟩ := exists_number consistent vReached
  obtain ⟨k, kWithin, rfl⟩ := exists_number consistent (vReached.edge edge)
  rw [order_vertexAt consistent iWithin, order_vertexAt consistent kWithin] at low
  rw [descends_vertexAt consistent iWithin jWithin] at descends
  rw [descends_vertexAt consistent iWithin kWithin]
  exact (Analysis.numbers consistent).tree.ancestor_of_edge descends ⟨jWithin, kWithin, edge⟩ low

/-- A walk that stays above the number of its start stays below its start in the tree. -/
theorem descends_of_walk {path : List Nat} (descends : (ofGraph graph).descends v u = true)
    (walk : graph.Walk .forward v w path)
    (low : ∀ x ∈ path, (ofGraph graph).order u ≤ (ofGraph graph).order x) :
    (ofGraph graph).descends w u = true := by
  induction walk with
  | stay => exact descends
  | step edge rest inductionHypothesis =>
      obtain ⟨_, later⟩ := List.forall_mem_cons.mp low
      exact inductionHypothesis
        (descends_of_edge consistent descends edge (later _ rest.start_mem)) later

theorem descends_self (reaches : graph.Reaches .forward root v) :
    (ofGraph graph).descends v v = true := by
  obtain ⟨i, within, rfl⟩ := exists_number consistent reaches
  exact (descends_vertexAt consistent within within).mpr (.self i)

end Tree

end Analysis

/-! ## Retreating edges of cycles -/

section Cycles

variable {graph : RegionGraph} {path : List Nat}

/-- The vertices of a cycle are reached when one of them is. -/
theorem Digraph.Cycle.reaches {α : Type} {graph : Digraph α} (cycle : graph.Cycle path)
    (someReached : ∃ v ∈ path, graph.Reaches .forward root v) {x : Nat} (member : x ∈ path) :
    graph.Reaches .forward root x := by
  obtain ⟨v, onPath, reaches⟩ := someReached
  obtain ⟨other, _, same, walk, _⟩ := cycle.rotate onPath
  exact reaches.trans (walk.reaches_of_mem (same.mem_iff.mpr member))

/-- A cycle retreats to the vertex with the least number, and from every other vertex it
comes to that edge without passing the least. -/
theorem Digraph.Cycle.exists_retreat (consistent : graph.Consistent) (cycle : graph.Cycle path)
    (someReached : ∃ v ∈ path, graph.Reaches .forward root v) :
    ∃ head ∈ path, ∃ latch ∈ path, head ∈ graph.successors latch ∧
      (Analysis.ofGraph graph).descends latch head = true ∧
      ∀ v ∈ path, v = head ∨ ∃ onward, graph.Walk .forward v latch onward ∧ head ∉ onward := by
  have ⟨distinct, start, _, along, _⟩ := cycle
  obtain ⟨head, isLeast, least⟩ := path.toFinset.exists_min_image (Analysis.ofGraph graph).order
    ⟨start, List.mem_toFinset.mpr along.start_mem⟩
  have onPath := List.mem_toFinset.mp isLeast
  obtain ⟨other, latch, same, walk, back⟩ := cycle.rotate onPath
  refine ⟨head, onPath, latch, same.mem_iff.mp walk.end_mem, back, ?_, fun v member => ?_⟩
  · have self := Analysis.descends_self consistent (cycle.reaches someReached onPath)
    refine Analysis.descends_of_walk consistent self walk fun x onOther => ?_
    exact least x (List.mem_toFinset.mpr (same.mem_iff.mp onOther))
  · obtain ⟨before, onward, rfl, rest, ⟨_, isHead⟩ | ⟨y, front, _⟩⟩ :=
      walk.split (same.mem_iff.mpr member)
    · exact .inl isHead.symm
    · have apart := (List.nodup_append.mp (same.nodup_iff.mpr distinct)).2.2
      exact .inr ⟨onward, rest, fun again => apart head front.start_mem head again rfl⟩

end Cycles

namespace RegionGraph

variable {graph : RegionGraph}

/-- No edge is found when no edge from a region that is tried enters sideways. -/
theorem not_entersSideways_of_sidewaysEdge? {analysis : Analysis}
    (none : graph.sidewaysEdge? analysis = none) {source target : Nat}
    (tried : source ∈ analysis.postorder) (isExit : target ∈ graph.exits source) :
    entersSideways analysis source target = false := by
  unfold sidewaysEdge? at none
  dsimp only at none
  rcases State.foldl_keeps (preferEdge analysis) (fun _ => rfl)
    (fun best x => by
      unfold preferEdge
      dsimp only
      split <;> simp)
    (analysis.postorder.flatMap fun source =>
      ((graph.exits source).filter (entersSideways analysis source)).map (source, ·))
    with ⟨empty, _⟩ | ⟨edge, _, result⟩
  · have here := List.flatMap_eq_nil_iff.mp empty source tried
    rw [List.map_eq_nil_iff, List.filter_eq_nil_iff] at here
    exact Bool.eq_false_iff.mpr (here target isExit)
  · rw [none] at result
    cases result

/-- An edge enters a loop sideways exactly when some cycle has no head. -/
theorem sidewaysEdge?_eq_none_iff (consistent : graph.Consistent)
    (sink : graph.successors terminator = []) :
    graph.sidewaysEdge? (Analysis.ofGraph graph) = none ↔ graph.HeadedCycles := by
  refine ⟨fun none path cycle someReached => ?_, sidewaysEdge?_eq_none consistent⟩
  obtain ⟨head, onPath, latch, isLatch, back, retreats, onward⟩ :=
    cycle.exists_retreat consistent someReached
  have reaches {v : Nat} (member : v ∈ path) := cycle.reaches someReached member
  have notEnd {v : Nat} (member : v ∈ path) : v ≠ terminator := by
    rintro rfl
    exact cycle.successors_ne_nil member sink
  -- The head dominates the source of its retreating edge.
  have dominates : graph.Dominates .forward head latch := by
    by_cases isRoot : latch = root
    · obtain rfl : head = latch := by
        by_contra different
        obtain ⟨_, ⟨notRoot, _⟩, _⟩ := Relation.TransGen.head'_iff.mp
          (Analysis.stepsUp_of_descends consistent retreats different)
        exact notRoot isRoot
      exact .refl head
    · have straight := not_entersSideways_of_sidewaysEdge? none
        ((Analysis.mem_postorder consistent).mpr ⟨reaches isLatch, isRoot, notEnd isLatch⟩)
        (mem_exits.mpr ⟨back, notEnd onPath⟩)
      rw [entersSideways, retreats, Bool.true_and, Bool.not_eq_false'] at straight
      exact ((Analysis.dominates_iff consistent).mp straight).2.2
  refine ⟨head, onPath, fun v member => ?_⟩
  rcases onward v member with rfl | ⟨way, walk, past⟩
  · exact .refl v
  · exact dominates.of_past walk past

/-! ## Well-formed graphs -/

section WellFormed

variable (wellFormed : graph.WellFormed)
include wellFormed

/-- Cycles consist of live regions. -/
theorem WellFormed.isLive_of_cycle {path : List Nat} (cycle : graph.Cycle path) {v : Nat}
    (member : v ∈ path) : graph.isLive v = true := by
  obtain ⟨_, _, _, _, back⟩ := cycle.rotate member
  refine (wellFormed.ends back).2.resolve_left ?_
  rintro rfl
  exact cycle.successors_ne_nil member wellFormed.successors_terminator

/-- The entry dominates every region. -/
theorem WellFormed.dominates_of_entry? {e v : Nat} (isEntry : graph.entry? = some e)
    (notRoot : v ≠ root) : graph.Dominates .forward e v := by
  obtain ⟨_, found, single, _⟩ := wellFormed.entry?_eq
  obtain rfl := Option.some.inj (isEntry.symm.trans found)
  intro path walk
  cases walk with
  | stay => exact absurd rfl notRoot
  | @step _ next _ _ edge rest =>
      have first : next ∈ graph.successors root := edge
      rw [single, List.mem_singleton] at first
      exact List.mem_cons_of_mem _ (first ▸ rest.start_mem)

/-- When all regions are reached, a second entry is found exactly when some cycle has no
head. -/
theorem WellFormed.isSome_sidewaysEdge?_iff (all : graph.AllReached) :
    (graph.sidewaysEdge? (Analysis.ofGraph graph)).isSome = true ↔
      ∃ path, graph.Cycle path ∧ ∀ head ∈ path, ∃ v ∈ path, ¬ graph.Dominates .forward head v := by
  rw [← Option.ne_none_iff_isSome, ne_eq, sidewaysEdge?_eq_none_iff wellFormed.consistent
    wellFormed.successors_terminator, Digraph.HeadedCycles]
  push Not
  refine exists_congr fun path => and_congr_right fun cycle => and_iff_right ?_
  have ⟨_, v, _, along, _⟩ := cycle
  exact ⟨v, along.start_mem, all v (wellFormed.isLive_of_cycle cycle along.start_mem)⟩

/-- What the second entry that is found looks like. -/
theorem WellFormed.of_sidewaysEdge? {p v : Nat}
    (found : graph.sidewaysEdge? (Analysis.ofGraph graph) = some (p, v)) :
    v ∈ graph.successors p ∧ v ≠ p ∧ Relation.TransGen (Analysis.ofGraph graph).StepsUp p v ∧
      graph.entry? ≠ some v ∧ graph.isJump v = false ∧
      ∃ path, graph.Walk .forward root p path ∧ v ∉ path := by
  have consistent := wellFormed.consistent
  obtain ⟨tried, isExit, descends, notFound⟩ := State.sidewaysEdge?_eq_some found
  obtain ⟨vReached, pReached, down⟩ := Analysis.walk_of_descends consistent descends
  obtain ⟨_, notRoot, _⟩ := (Analysis.mem_postorder consistent).mp tried
  have notDominates : ¬ graph.Dominates .forward v p := fun dominates =>
    Bool.false_ne_true (notFound.symm.trans
      ((Analysis.dominates_iff consistent).mpr ⟨vReached, pReached, dominates⟩))
  have different : v ≠ p := fun same => notDominates (same ▸ .refl v)
  refine ⟨(mem_exits.mp isExit).1, different,
    Analysis.stepsUp_of_descends consistent descends different,
    fun isEntry => notDominates (wellFormed.dominates_of_entry? isEntry notRoot), ?_, ?_⟩
  · obtain same | ⟨_, ⟨edge, _⟩, _⟩ := Relation.ReflTransGen.cases_head down
    · exact absurd same different
    · exact wellFormed.not_isJump_of_mem edge
  · rw [Digraph.Dominates] at notDominates
    push Not at notDominates
    exact notDominates

end WellFormed

end RegionGraph

/-! ## Runs -/

namespace Structuring

variable {α : Type} {input : Digraph α} {config : Config} {structuring : Structuring}

/-- The states of a run are well formed. -/
theorem wellFormed_of_reached (built : input.Built)
    (attached : ∀ {u v}, v ∈ input.successors u →
      input.isDetached u = false ∧ input.isDetached v = false)
    (rooted : ∀ v ∈ input.successors root, (input.payload? v).isSome = true)
    (accepted : Structuring.ofGraph config input = .ok structuring) {state : State}
    (reached : State.Reached config structuring.state state) : state.graph.WellFormed := by
  have sound : RegionGraph.Sound input :=
    ⟨built.consistent, attached, fun v edge =>
      ((built.consistent.payloads v).mp (rooted v edge)).1⟩
  obtain ⟨_, _, _, _, _, proper⟩ := proper_ofGraph sound accepted
  exact (proper.reached reached).wellFormed

/-- In every state of a run whose regions are all reached, the test for second entries finds an
edge exactly when some cycle has no vertex that dominates it.  So it does for every order of
the same edges, whatever tree that order produces.  The edge that is found leads up the tree to
a vertex other than the entry and no jump, which some walk to the source of the edge
avoids. -/
theorem second_entries_exact (built : input.Built)
    (attached : ∀ {u v}, v ∈ input.successors u →
      input.isDetached u = false ∧ input.isDetached v = false)
    (rooted : ∀ v ∈ input.successors root, (input.payload? v).isSome = true)
    (accepted : Structuring.ofGraph config input = .ok structuring) {state : State}
    (reached : State.Reached config structuring.state state) (all : state.graph.AllReached) :
    ((state.graph.sidewaysEdge? (Analysis.ofGraph state.graph)).isSome = true ↔
      ∃ path, state.graph.Cycle path ∧
        ∀ head ∈ path, ∃ v ∈ path, ¬ state.graph.Dominates .forward head v) ∧
    (∀ reordered : RegionGraph, reordered.Consistent →
      (∀ u, (reordered.successors u).Perm (state.graph.successors u)) →
      (reordered.sidewaysEdge? (Analysis.ofGraph reordered)).isSome =
        (state.graph.sidewaysEdge? (Analysis.ofGraph state.graph)).isSome) ∧
    ∀ p v, state.graph.sidewaysEdge? (Analysis.ofGraph state.graph) = some (p, v) →
      v ∈ state.graph.successors p ∧ v ≠ p ∧
      Relation.TransGen (Analysis.ofGraph state.graph).StepsUp p v ∧
      state.graph.entry? ≠ some v ∧ state.graph.isJump v = false ∧
      ∃ path, state.graph.Walk .forward root p path ∧ v ∉ path := by
  have wellFormed := wellFormed_of_reached built attached rooted accepted reached
  refine ⟨wellFormed.isSome_sidewaysEdge?_iff all, fun reordered consistent same => ?_,
    fun p v => wellFormed.of_sidewaysEdge?⟩
  have sink : reordered.successors terminator = [] :=
    (wellFormed.successors_terminator ▸ same terminator).eq_nil
  have headed : reordered.HeadedCycles ↔ state.graph.HeadedCycles :=
    ⟨fun headed => headed.of_edges fun edge _ => (same _).mem_iff.mpr edge,
      fun headed => headed.of_edges fun edge _ => (same _).mem_iff.mp edge⟩
  rw [Bool.eq_iff_iff, ← Option.ne_none_iff_isSome, ← Option.ne_none_iff_isSome]
  refine not_congr ?_
  rw [RegionGraph.sidewaysEdge?_eq_none_iff consistent sink, headed,
    RegionGraph.sidewaysEdge?_eq_none_iff wellFormed.consistent wellFormed.successors_terminator]

def enteredTwice : Digraph Unit :=
  Digraph.ofEdges 4 [(0, 2), (2, 3), (2, 4), (3, 4), (4, 3), (4, 5), (5, 1)]

/-- Its second entry is found, below the first in the tree. -/
theorem second_entries_exact_enteredTwice :
    ∃ structuring, Structuring.ofGraph {} enteredTwice = .ok structuring ∧
      structuring.state.graph.sidewaysEdge? (Analysis.ofGraph structuring.state.graph) =
        some (4, 3) ∧
      (∃ path, structuring.state.graph.Cycle path ∧
        ∀ head ∈ path, ∃ v ∈ path, ¬ structuring.state.graph.Dominates .forward head v) ∧
      Relation.TransGen (Analysis.ofGraph structuring.state.graph).StepsUp 4 3 ∧
      ∃ path, structuring.state.graph.Walk .forward root 4 path ∧ 3 ∉ path := by
  have built : enteredTwice.Built := Digraph.built_ofEdges (by decide)
  have attached : ∀ {u v}, v ∈ enteredTwice.successors u →
      enteredTwice.isDetached u = false ∧ enteredTwice.isDetached v = false :=
    RegionGraph.attached_of_lt (by decide +kernel)
  have rooted : ∀ v ∈ enteredTwice.successors root, (enteredTwice.payload? v).isSome = true := by
    decide +kernel
  have ran : ((Structuring.ofGraph {} enteredTwice).toOption.map fun structuring =>
      (structuring.state.strays (Analysis.ofGraph structuring.state.graph),
        structuring.state.graph.sidewaysEdge? (Analysis.ofGraph structuring.state.graph))) =
      some ([], some (4, 3)) := by decide +kernel
  cases accepted : Structuring.ofGraph {} enteredTwice with
  | error rejected =>
      rw [accepted] at ran
      cases ran
  | ok structuring =>
      rw [accepted] at ran
      obtain ⟨noStrays, found⟩ := Prod.mk.inj (Option.some.inj ran)
      have all := State.allReached_of_strays_eq_nil
        (wellFormed_of_reached built attached rooted accepted .refl) noStrays
      obtain ⟨finds, _, shape⟩ := second_entries_exact built attached rooted accepted .refl all
      obtain ⟨_, _, up, _, _, around⟩ := shape 4 3 found
      exact ⟨structuring, rfl, found, finds.mp (found ▸ rfl), up, around⟩

end Structuring

end FlowRegions
