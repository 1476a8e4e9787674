import FlowRegions.Proofs.Structuring.Recursions
import FlowRegions.Proofs.Structuring.ReturnedTrees

/-!
Contract: the tables of a run are founded, whatever graph the run starts from.

A jump is a sink, and what a composite, a copy or a shortened body opens with has an edge or
opens an earlier region.  So no region ever opens with a jump.  The rest of what a founded
table needs holds already, and with it every walk down the table settles.

Owns:
- `NodeTable.OpensProperly`, with its step and run lemmas;
- `Structuring.run_tables_founded`: in every state of every run, and in every tree that a run
  returns, the table is founded, its walks settle, regions start at vertices of the input and
  texts are resolved.
-/

namespace FlowRegions

def NodeTable.OpensProperly (table : NodeTable) : Prop :=
  ∀ i node first, table i = some node → node.children.head? = some first →
    (table first).map Node.kind ≠ some .jump

theorem NodeTable.Nested.opening_lt {table : NodeTable} (nested : table.Nested) {i first : Nat}
    {node : Node} (found : table i = some node) (opening : node.children.head? = some first) :
    first < i :=
  nested.below found first (Node.mem_references_of_mem_children (List.mem_of_head? opening))

namespace RegionGraph

variable {config : Config} {labels : List Nat} {graph changed : RegionGraph} {v : Nat}
  {collapse : Collapse}

theorem opensProperly_iff : graph.table.OpensProperly ↔
    ∀ i node first, graph.table i = some node → node.children.head? = some first →
      graph.isJump first = false := by
  simp only [NodeTable.OpensProperly, isJump, kind?, beq_eq_false_iff_ne]

/-- What a composite with the given entry may open with: the entry, or what an earlier region
opens with. -/
def Opens (graph : RegionGraph) (entry first : Nat) : Prop :=
  first = entry ∨ ∃ i node, graph.table i = some node ∧ node.children.head? = some first

/-- What a composite opens with, and a part that is added with it. -/
theorem Matches.opens (wellFormed : graph.WellFormed)
    (found : Matches config labels graph v collapse) :
    (∀ first, collapse.node.children.head? = some first → graph.Opens collapse.entry first) ∧
      ∀ part, collapse.part = some part → ∀ first, part.children.head? = some first →
        graph.Opens collapse.entry first := by
  have atEntry {first : Nat} {rest : List Nat} (opening : (v :: rest).head? = some first) :
      graph.Opens v first :=
    .inl (Option.some.inj opening).symm
  cases found with
  | @forLoop body follow init step inner nodes part cond loop counting isInner =>
      refine ⟨fun first opening => .inl (Option.some.inj opening).symm,
        fun node isPart first opening => ?_⟩
      obtain ⟨bodyCond, isBody⟩ := counting.body_parts
      generalize isRest : nodes.dropLast = rest at isInner
      cases isInner with
      | single => cases isPart
      | several =>
          -- The shortened body opens as the body does.
          cases isPart
          refine .inr ⟨body, _, isBody, ?_⟩
          have several : 1 < nodes.length := counting.several
          change rest.head? = some first at opening
          rwa [← isRest, List.head?_dropLast, if_pos several] at opening
  | compound foldable branch =>
      refine ⟨fun first opening => .inr ⟨v, _, foldable.head_node, opening⟩, ?_⟩
      rintro part ⟨⟩
  | @sequence next exits proper alone ends =>
      refine ⟨fun first opening => ?_, ?_⟩
      · change (graph.sequenceParts v ++ graph.sequenceParts next).head? = some first at opening
        rcases graph.sequenceParts_cases v with ⟨nodes, isSeq, same⟩ | same
        · obtain ⟨opens, rest, rfl⟩ :=
            List.exists_cons_of_ne_nil (wellFormed.nested.parts isSeq)
          rw [same] at opening
          exact .inr ⟨v, _, isSeq, opening⟩
        · rw [same] at opening
          exact atEntry opening
      · rintro part ⟨⟩
  | _ =>
      refine ⟨fun first => atEntry, ?_⟩
      rintro part ⟨⟩

section Effects

variable (wellFormed : graph.WellFormed) (proper : graph.table.OpensProperly)
include wellFormed proper

theorem not_isJump_of_opens (fits : graph.Fits collapse) {first : Nat}
    (opens : graph.Opens collapse.entry first) : graph.isJump first = false := by
  rcases opens with rfl | ⟨i, node, found, opening⟩
  · obtain ⟨d, isBranch⟩ := List.exists_mem_of_ne_nil _ fits.entry_branches
    exact wellFormed.not_isJump_of_mem (mem_branches.mp isBranch).1
  · exact opensProperly_iff.mp proper i node first found opening

theorem Collapsed.keeps_opensProperly {new : Nat} (live : graph.isLive v = true)
    (found : Matches config labels graph v collapse)
    (collapsed : Collapsed graph collapse new changed) : changed.table.OpensProperly := by
  have fits := found.fits wellFormed live
  obtain ⟨ofNode, ofPart⟩ := found.opens wellFormed
  refine opensProperly_iff.mpr fun i node first isNode opening => ?_
  have opens : graph.Opens collapse.entry first := by
    rcases collapsed.table_cases isNode with ⟨_, old⟩ | ⟨_, _, isPart⟩ | ⟨_, rfl⟩
    · exact .inr ⟨i, node, old, opening⟩
    · exact ofPart node isPart first opening
    · exact ofNode first opening
  rw [Bool.eq_false_iff]
  intro isJump
  have wasJump := ((collapsed.isJump_iff_old fits).mp isJump).2
  rw [not_isJump_of_opens wellFormed proper fits opens] at wasJump
  cases wasJump

theorem Copied.keeps_opensProperly {outside : List Nat} (live : graph.isLive v = true)
    (notJump : graph.isJump v = false) (copied : Copied graph v outside changed) :
    changed.table.OpensProperly := by
  refine opensProperly_iff.mpr fun i node first isNode opening => ?_
  obtain ⟨within, plain⟩ : first < graph.size ∧ graph.isJump first = false := by
    rcases copied.table_cases isNode with ⟨old, isOld⟩ | ⟨_, rfl⟩ | ⟨_, _, _, _, _, rfl⟩
    · have earlier := wellFormed.nested.opening_lt isOld opening
      exact ⟨by omega, opensProperly_iff.mp proper i node first isOld opening⟩
    · cases opening
      exact ⟨Digraph.lt_size_of_isLive live, notJump⟩
    · cases opening
  rw [isJump_congr (copied.table_old within), plain]

theorem Severed.keeps_opensProperly {source target : Nat}
    (severed : Severed graph source target changed) : changed.table.OpensProperly := by
  refine opensProperly_iff.mpr fun i node first isNode opening => ?_
  rcases severed.table_cases isNode with ⟨within, isOld⟩ | ⟨_, rfl⟩
  · have earlier := wellFormed.nested.opening_lt isOld opening
    rw [isJump_congr (severed.table_old (by omega))]
    exact opensProperly_iff.mp proper i node first isOld opening
  · cases opening

end Effects

end RegionGraph

namespace State

variable {config : Config} {start state next : State} {action : Action}

/-- A lawful step keeps regions from opening with a jump, unless it copies one. -/
theorem Lawful.keeps_opensProperly (wellFormed : state.graph.WellFormed)
    (lawful : Lawful config state action)
    (copiesNone : ∀ region outside, action = .duplicate region outside →
      state.graph.isJump region = false)
    (proper : state.graph.table.OpensProperly) :
    (state.perform action).1.graph.table.OpensProperly := by
  cases lawful with
  | @prune regions live entryStays =>
      have same : (state.perform (.prune regions)).1.graph.table = state.graph.table :=
        funext (RegionGraph.pruned_isolateAll wellFormed.consistent regions).table_eq
      rw [same]
      exact proper
  | collapse live found =>
      exact (RegionGraph.collapsed_collapse wellFormed
        (found.fits wellFormed live)).keeps_opensProperly wellFormed proper live found
  | duplicate live entering =>
      exact (RegionGraph.copied_giveCopy wellFormed.consistent (Digraph.lt_size_of_isLive live)
        entering).keeps_opensProperly wellFormed proper live (copiesNone _ _ rfl)
  | cut departs =>
      exact (RegionGraph.severed_redirect wellFormed.consistent _ _).keeps_opensProperly
        wellFormed proper

namespace Shaped

variable (shaped : Shaped state)
include shaped

/-- What is duplicated lies on a cycle: it has an edge, so it is no jump. -/
theorem not_isJump_of_duplicate {region : Nat} {outside : List Nat}
    (chosen : state.choose config = some (.duplicate region outside)) :
    state.reattach.graph.isJump region = false := by
  have consistent := shaped.consistent
  cases choice_of_choose chosen with
  | @duplicate source _ noStray sideways few =>
      obtain ⟨_, _, descends, notDominated⟩ := sidewaysEdge?_eq_some sideways
      obtain ⟨regionReached, sourceReached, down⟩ := Analysis.walk_of_descends consistent descends
      obtain rfl | ⟨next, ⟨edge, _⟩, _⟩ := Relation.ReflTransGen.cases_head down
      · have dominates := (Analysis.dominates_iff consistent).mpr
          ⟨regionReached, regionReached, Digraph.Dominates.refl region⟩
        rw [notDominated] at dominates
        cases dominates
      · change next ∈ state.graph.successors region at edge
        rw [state.alike_graph_reattach.successors_eq] at edge
        exact RegionGraph.WellFormed.not_isJump_of_mem shaped edge

theorem keeps_opensProperly (proper : state.graph.table.OpensProperly)
    (steps : Steps config state next) : next.graph.table.OpensProperly := by
  obtain ⟨_, action, chosen, rfl⟩ := steps
  have alike := state.alike_graph_reattach
  rw [RegionGraph.table_alike alike] at proper
  rw [RegionGraph.table_alike (alike_perform alike action)]
  refine (shaped.lawful_of_choose chosen).keeps_opensProperly shaped ?_ proper
  rintro region outside rfl
  exact shaped.not_isJump_of_duplicate chosen

end Shaped

theorem Shaped.opensProperly_reached (shaped : Shaped start)
    (proper : start.graph.table.OpensProperly) (reached : Reached config start state) :
    state.graph.table.OpensProperly := by
  induction reached with
  | refl => exact proper
  | tail before steps inductionHypothesis =>
      exact (shaped.reached before).keeps_opensProperly inductionHypothesis steps

end State

namespace Structuring

variable {α : Type} {config : Config} {input : Digraph α} {structuring : Structuring}

/-- A run starts from leaves, which open with nothing. -/
theorem opensProperly_ofGraph (built : input.Built)
    (accepted : Structuring.ofGraph config input = .ok structuring) :
    structuring.state.graph.table.OpensProperly := by
  obtain ⟨graph, made, rfl⟩ := exists_graph_of_ofGraph accepted
  obtain ⟨_, _, _, adopted⟩ := RegionGraph.adopted_of_ofInput built.consistent made
  intro i node first found opening
  rw [RegionGraph.eq_leaf_of_leaves adopted.table_eq found] at opening
  cases opening

section Reached

variable (built : input.Built) (accepted : Structuring.ofGraph config input = .ok structuring)
  {state : State} (reached : State.Reached config structuring.state state)
include built accepted reached

theorem opensProperly_of_reached : state.graph.table.OpensProperly := by
  have proper := opensProperly_ofGraph built accepted
  obtain ⟨_, ⟨shaped, _⟩ | ⟨unrooted, _⟩⟩ := start_cases built accepted
  · exact shaped.opensProperly_reached proper reached
  · rw [(unrooted.same reached).2.1]
    exact proper

theorem founded_of_reached :
    state.graph.table.Founded fun w => (input.payload? w).isSome = true where
  nested := (consistent_of_reached built accepted reached).2
  present := fun found _ refers => isSome_of_reference built accepted reached found refers
  opening := fun found opening =>
    opensProperly_of_reached built accepted reached _ _ _ found opening
  vertices := fun found =>
    (built.consistent.payloads _).mpr ((grounded_of_reached built accepted reached).vertices found)

end Reached

/-- Runs from an accepted graph, any number of them one after the other.  In every state they
pass through the table is founded: what a region refers to is an earlier region, sequences
have parts, no region opens with a jump, and leaves are vertices of the input.  So references
lead on only finitely often, each walk down the table is a recursion with one solution, which
the bounded walk finds, and each region starts at a vertex of the input and has a text without
a missing region.  The same holds of every tree that a run returns. -/
theorem run_tables_founded (built : input.Built)
    (accepted : Structuring.ofGraph config input = .ok structuring) :
    (∀ state, State.Reached config structuring.state state →
      state.graph.table.Founded (fun w => (input.payload? w).isSome = true) ∧
      WellFounded state.graph.table.Refers ∧ state.graph.table.Walkable ∧
      ∀ i, (state.graph.table i).isSome = true → i < state.graph.size ∧
        ∀ fuel, i < fuel →
          (∃ w, state.graph.table.firstVertex? fuel i = some w ∧
            (input.payload? w).isSome = true) ∧
          '?' ∉ (state.graph.table.render fuel i).toList) ∧
    ∀ count tree, (structuring.afterRuns count).run.2.2 = .ok tree →
      tree.table.Founded (fun w => (input.payload? w).isSome = true) ∧
      WellFounded tree.table.Refers ∧ tree.table.Walkable ∧ tree.root < tree.nodes.size ∧
      (∀ i, (tree.table i).isSome = true → ∀ fuel, i < fuel →
        ∃ w, tree.table.firstVertex? fuel i = some w ∧ (input.payload? w).isSome = true) ∧
      '?' ∉ tree.render.toList := by
  refine ⟨fun state reached => ?_, fun count tree result => ?_⟩
  · have founded := founded_of_reached built accepted reached
    refine ⟨founded, founded.nested.wellFounded_refers, founded.nested.walkable,
      fun i isRegion => ?_⟩
    obtain ⟨node, found⟩ := Option.isSome_iff_exists.mp isRegion
    exact ⟨RegionGraph.lt_size_of_table found, fun fuel enough =>
      ⟨founded.exists_firstVertex? isRegion enough,
        founded.question_notMem_render isRegion enough⟩⟩
  · obtain ⟨graph, _, isStart⟩ := exists_graph_of_ofGraph accepted
    have sameConfig : structuring.config = config := by rw [isStart]
    obtain ⟨final, reached, finished⟩ :=
      structuring.exists_final_afterRuns (by rw [isStart]) count result
    rw [sameConfig] at reached
    obtain ⟨_, isRegion⟩ := closed_of_finished built accepted reached finished
    obtain ⟨entry, _, _, rfl⟩ := State.exists_entry_of_finish? finished
    have founded := founded_of_reached built accepted reached
    rw [← State.table_tree final entry] at founded
    have within : (final.tree entry).root < (final.tree entry).nodes.size := by
      obtain ⟨node, found⟩ := Option.isSome_iff_exists.mp isRegion
      rw [State.table_tree] at found
      rw [State.size_tree]
      exact RegionGraph.lt_size_of_table found
    exact ⟨founded, founded.nested.wellFounded_refers, founded.nested.walkable, within,
      fun i isRegion fuel enough => founded.exists_firstVertex? isRegion enough,
      founded.question_notMem_render isRegion within⟩

/-- A loop with two entries, left towards a counting loop. -/
def countedBehind : Digraph Unit :=
  .ofEdges 10 [(0, 2), (2, 3), (2, 5), (3, 6), (3, 4), (4, 3), (4, 5), (5, 4), (6, 7), (7, 8),
    (7, 11), (8, 9), (9, 10), (10, 7), (11, 1)]

def steppedByTen : Config where
  isStep v := v == 10

/-- Its tree holds a counting loop with a body of its own, a jump, and a copy of the region that
the jump stands in. -/
theorem run_tables_founded_countedBehind : ∃ structuring tree,
    Structuring.ofGraph steppedByTen countedBehind = .ok structuring ∧
    structuring.run.2.2 = .ok tree ∧
    [14, 15, 18, 19, 20].map (fun i => (tree.table i).map Node.shape) =
      [some (.seq [8, 9]), some (.forLoop 6 7 14 10), some (.jump 17), some (.ifThen 4 18),
        some (.tail 19)] ∧
    tree.table.Founded (fun w => (countedBehind.payload? w).isSome = true) ∧
    WellFounded tree.table.Refers ∧ tree.table.Walkable ∧
    '?' ∉ tree.render.toList := by
  have built : countedBehind.Built := Digraph.built_ofEdges (by decide)
  have ran : ((Structuring.ofGraph steppedByTen countedBehind).toOption.bind fun structuring =>
      structuring.run.2.2.toOption.map fun tree =>
        [14, 15, 18, 19, 20].map fun i => (tree.table i).map Node.shape) =
        some [some (.seq [8, 9]), some (.forLoop 6 7 14 10), some (.jump 17),
          some (.ifThen 4 18), some (.tail 19)] := by
    decide +kernel
  cases accepted : Structuring.ofGraph steppedByTen countedBehind with
  | error rejected =>
      rw [accepted] at ran
      cases ran
  | ok structuring =>
      rw [accepted] at ran
      cases result : structuring.run.2.2 with
      | error problem =>
          simp only [Except.toOption, Option.bind_some, result] at ran
          cases ran
      | ok tree =>
          simp only [Except.toOption, Option.bind_some, result, Option.map_some,
            Option.some.injEq] at ran
          obtain ⟨founded, descends, walkable, _, _, resolved⟩ :=
            (run_tables_founded built accepted).2 0 tree result
          exact ⟨structuring, tree, rfl, result, ran, founded, descends, walkable, resolved⟩

end Structuring

end FlowRegions
