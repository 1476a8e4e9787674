import FlowRegions.Proofs.Structuring.Contents
import FlowRegions.Proofs.Structuring.Reducible
import FlowRegions.Proofs.Structuring.Safety

/-!
Contract: regions refer to regions, and leaves to vertices of the input.

The parts of a composite are members of what it replaces, or were parts of a member; a
copy and a jump refer to a region that an edge leads to.  None of these is the root or the
terminator, whatever graph a run starts from, so no reference of a table is without a node.
A leaf is one from the start, or one that a test was folded into.

Owns:
- `NodeTable.Grounded`, with its step and run lemmas;
- `Structuring.isSome_of_reference`: in every state of every run, every reference has a
  node.
-/

namespace FlowRegions

open FlowRegions.Digraph (root terminator)

/-- No region refers to the root or the terminator, and the leaves are real vertices of an
input of the given size. -/
structure NodeTable.Grounded (table : NodeTable) (bound : Nat) : Prop where
  references : ∀ {i node}, table i = some node → ∀ r ∈ node.references, 2 ≤ r
  vertices : ∀ {i w cond}, table i = some ⟨.leaf w, cond⟩ → 2 ≤ w ∧ w < bound

namespace RegionGraph

variable {config : Config} {labels : List Nat} {graph changed : RegionGraph} {v : Nat}
  {collapse : Collapse}

/-- Where the references of a node come from that takes the place of `members`: they are
members, or references of earlier nodes, or the index that comes next. -/
def Drawn (graph : RegionGraph) (members : List Nat) (r : Nat) : Prop :=
  r ∈ members ∨ (∃ i node, graph.table i = some node ∧ r ∈ node.references) ∨ r = graph.size

theorem sequenceParts_drawn {members : List Nat} (member : v ∈ members) {r : Nat}
    (isPart : r ∈ graph.sequenceParts v) : graph.Drawn members r := by
  rcases graph.sequenceParts_cases v with ⟨nodes, found, same⟩ | same
  · rw [same] at isPart
    exact .inr (.inl ⟨v, _, found, isPart⟩)
  · rw [same, List.mem_singleton] at isPart
    exact .inl (isPart ▸ member)

/-- The references of a composite, and those of a part that is added with it. -/
theorem Matches.drawn (found : Matches config labels graph v collapse) :
    (∀ r ∈ collapse.node.references, graph.Drawn collapse.members r) ∧
      ∀ part, collapse.part = some part → ∀ r ∈ part.references,
        graph.Drawn collapse.members r := by
  cases found with
  | @forLoop body follow init step inner nodes part cond loop counting isInner =>
      obtain ⟨bodyCond, isBody⟩ := counting.body_parts
      have ofBody {r : Nat} (isPart : r ∈ nodes) : graph.Drawn [init, v, body] r :=
        .inr (.inl ⟨body, _, isBody, isPart⟩)
      have isStep := List.mem_of_getLast? counting.step_last
      generalize isRest : nodes.dropLast = rest at isInner
      have ofRest {r : Nat} (isPart : r ∈ rest) : graph.Drawn [init, v, body] r :=
        ofBody (List.dropLast_subset nodes (isRest ▸ isPart))
      have ofInner : graph.Drawn [init, v, body] inner := by
        cases isInner with
        | single => exact ofRest List.mem_cons_self
        | several => exact .inr (.inr rfl)
      constructor
      · intro r refers
        simp only [Node.references, Shape.children, List.mem_cons, List.not_mem_nil,
          or_false] at refers
        rcases refers with rfl | rfl | rfl | rfl
        · exact .inl (by simp)
        · exact .inl (by simp)
        · exact ofInner
        · exact ofBody isStep
      · intro node isPart r refers
        cases isInner with
        | single => cases isPart
        | several =>
            cases isPart
            exact ofRest refers
  | compound foldable branch =>
      refine ⟨fun r refers => .inr (.inl ⟨v, _, foldable.head_node, refers⟩), ?_⟩
      rintro part ⟨⟩
  | @sequence next exits proper alone ends =>
      refine ⟨fun r refers => ?_, ?_⟩
      · rcases List.mem_append.mp refers with isPart | isPart
        · exact sequenceParts_drawn List.mem_cons_self isPart
        · exact sequenceParts_drawn (List.mem_cons_of_mem _ List.mem_cons_self) isPart
      · rintro part ⟨⟩
  | switch switching returnsIff =>
      refine ⟨fun r refers => .inl ?_, ?_⟩
      · simp only [Node.references, Shape.children, switching.filterMap_body] at refers
        exact refers
      · rintro part ⟨⟩
  | _ =>
      refine ⟨fun r refers => .inl refers, ?_⟩
      rintro part ⟨⟩

/-- The only composite that is a leaf is one with a test folded into it. -/
theorem Matches.exists_leaf (found : Matches config labels graph v collapse) {w : Nat}
    (isLeaf : collapse.node.shape = .leaf w) :
    ∃ cond, graph.table v = some ⟨.leaf w, cond⟩ := by
  cases found with
  | @compound m vertex first second head folded outer inner foldable branch =>
      obtain ⟨shape, cond⟩ := head
      cases isLeaf
      exact ⟨cond, foldable.head_node⟩
  | _ => cases isLeaf

section Effects

variable {bound : Nat} (wellFormed : graph.WellFormed)
  (grounded : graph.table.Grounded bound)
include wellFormed grounded

theorem two_le_of_drawn {members : List Nat} (live : ∀ m ∈ members, graph.isLive m = true)
    {r : Nat} (drawn : graph.Drawn members r) : 2 ≤ r := by
  rcases drawn with member | ⟨i, node, found, refers⟩ | rfl
  · exact wellFormed.consistent.two_le_of_isLive (live r member)
  · exact grounded.references found r refers
  · exact wellFormed.consistent.atLeastTwo

theorem Collapsed.keeps_grounded {new : Nat} (live : graph.isLive v = true)
    (found : Matches config labels graph v collapse)
    (collapsed : Collapsed graph collapse new changed) : changed.table.Grounded bound := by
  have fits := found.fits wellFormed live
  obtain ⟨ofNode, ofPart⟩ := found.drawn
  have two_le {r : Nat} : graph.Drawn collapse.members r → 2 ≤ r :=
    two_le_of_drawn wellFormed grounded fits.live
  constructor
  · intro i node isNode r refers
    rcases collapsed.table_cases isNode with ⟨_, old⟩ | ⟨_, _, isPart⟩ | ⟨_, rfl⟩
    · exact grounded.references old r refers
    · exact two_le (ofPart node isPart r refers)
    · exact two_le (ofNode r refers)
  · intro i w cond isNode
    rcases collapsed.table_cases isNode with ⟨_, old⟩ | ⟨_, _, isPart⟩ | ⟨_, isNew⟩
    · exact grounded.vertices old
    · obtain ⟨nodes, isSeq, _⟩ := fits.part_shape _ isPart
      cases isSeq
    · obtain ⟨cond, old⟩ := found.exists_leaf (congrArg Node.shape isNew).symm
      exact grounded.vertices old

theorem Copied.keeps_grounded {outside : List Nat} (live : graph.isLive v = true)
    (copied : Copied graph v outside changed) : changed.table.Grounded bound := by
  constructor
  · intro i node isNode r refers
    rcases copied.table_cases isNode with ⟨_, old⟩ | ⟨_, rfl⟩ | ⟨_, _, _, _, isJump, rfl⟩
    · exact grounded.references old r refers
    · rw [List.mem_singleton.mp refers]
      exact wellFormed.consistent.two_le_of_isLive live
    · exact grounded.references isJump r refers
  · intro i w cond isNode
    rcases copied.table_cases isNode with ⟨_, old⟩ | ⟨_, isTail⟩ | ⟨_, _, _, _, _, isJump⟩
    · exact grounded.vertices old
    · cases isTail
    · cases isJump

theorem Severed.keeps_grounded {source target : Nat} (live : graph.isLive target = true)
    (severed : Severed graph source target changed) : changed.table.Grounded bound := by
  constructor
  · intro i node isNode r refers
    rcases severed.table_cases isNode with ⟨_, old⟩ | ⟨_, rfl⟩
    · exact grounded.references old r refers
    · rw [List.mem_singleton.mp refers]
      exact wellFormed.consistent.two_le_of_isLive live
  · intro i w cond isNode
    rcases severed.table_cases isNode with ⟨_, old⟩ | ⟨_, isJump⟩
    · exact grounded.vertices old
    · cases isJump

end Effects

end RegionGraph

namespace State

variable {config : Config} {start state next : State} {action : Action} {bound : Nat}

/-- A lawful step keeps tables grounded. -/
theorem Lawful.keeps_grounded (wellFormed : state.graph.WellFormed)
    (lawful : Lawful config state action) (grounded : state.graph.table.Grounded bound) :
    (state.perform action).1.graph.table.Grounded bound := by
  cases lawful with
  | @prune regions live entryStays =>
      have same : (state.perform (.prune regions)).1.graph.table = state.graph.table :=
        funext (RegionGraph.pruned_isolateAll wellFormed.consistent regions).table_eq
      rw [same]
      exact grounded
  | collapse live found =>
      exact (RegionGraph.collapsed_collapse wellFormed (found.fits wellFormed live)).keeps_grounded
        wellFormed grounded live found
  | duplicate live entering =>
      exact (RegionGraph.copied_giveCopy wellFormed.consistent (Digraph.lt_size_of_isLive live)
        entering).keeps_grounded wellFormed grounded live
  | cut departs =>
      exact (RegionGraph.severed_redirect wellFormed.consistent _ _).keeps_grounded wellFormed
        grounded (departs.isLive wellFormed).2

/-- So does every step from a state that is well formed with its regions attached. -/
theorem Shaped.keeps_grounded (shaped : Shaped state)
    (grounded : state.graph.table.Grounded bound) (steps : Steps config state next) :
    next.graph.table.Grounded bound := by
  obtain ⟨_, action, chosen, rfl⟩ := steps
  have alike := state.alike_graph_reattach
  rw [RegionGraph.table_alike alike] at grounded
  rw [RegionGraph.table_alike (alike_perform alike action)]
  exact (shaped.lawful_of_choose chosen).keeps_grounded shaped grounded

theorem Shaped.grounded_reached (shaped : Shaped start)
    (grounded : start.graph.table.Grounded bound) (reached : Reached config start state) :
    state.graph.table.Grounded bound := by
  induction reached with
  | refl => exact grounded
  | tail before steps inductionHypothesis =>
      exact (shaped.reached before).keeps_grounded inductionHypothesis steps

end State

namespace Structuring

variable {α : Type} {config : Config} {input : Digraph α} {structuring : Structuring}

/-- A run starts from a leaf for each real vertex. -/
theorem grounded_ofGraph (built : input.Built)
    (accepted : Structuring.ofGraph config input = .ok structuring) :
    structuring.state.graph.table.Grounded input.size := by
  obtain ⟨graph, made, rfl⟩ := exists_graph_of_ofGraph accepted
  obtain ⟨_, _, _, adopted⟩ := RegionGraph.adopted_of_ofInput built.consistent made
  constructor
  · intro i node found r refers
    rw [RegionGraph.eq_leaf_of_leaves adopted.table_eq found] at refers
    cases refers
  · intro i w cond found
    cases RegionGraph.eq_leaf_of_leaves adopted.table_eq found
    have within := (RegionGraph.table_isSome_iff adopted.consistent).mp (by rw [found]; rfl)
    rwa [adopted.size_eq] at within

variable (built : input.Built) (accepted : Structuring.ofGraph config input = .ok structuring)
  {state : State} (reached : State.Reached config structuring.state state)
include built accepted reached

theorem grounded_of_reached : state.graph.table.Grounded input.size := by
  have grounded := grounded_ofGraph built accepted
  obtain ⟨_, ⟨shaped, _⟩ | ⟨unrooted, _⟩⟩ := start_cases built accepted
  · exact shaped.grounded_reached grounded reached
  · rw [(unrooted.same reached).2.1]
    exact grounded

/-- In every state of every run, every reference has a node. -/
theorem isSome_of_reference {i r : Nat} {node : Node} (found : state.graph.table i = some node)
    (refers : r ∈ node.references) : (state.graph.table r).isSome = true := by
  obtain ⟨consistent, nested⟩ := consistent_of_reached built accepted reached
  have earlier := nested.below found r refers
  have within := RegionGraph.lt_size_of_table found
  exact (RegionGraph.table_isSome_iff consistent).mpr
    ⟨(grounded_of_reached built accepted reached).references found r refers, by omega⟩

end Structuring

end FlowRegions
