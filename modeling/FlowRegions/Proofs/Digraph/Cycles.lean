import FlowRegions.Proofs.Digraph.Walks

/-!
Contract: cycles of a graph, and graphs whose cycles have heads.

Owns:
- `Digraph.Cycle`, a closed walk that passes no vertex twice;
- `Digraph.HeadedCycles`, reducibility as a statement about walks: every cycle
  that the root reaches has a vertex that dominates all of it;
- how walks are joined, cut at a vertex and freed of repetitions, which is how
  cycles are built and turned around.
-/

namespace FlowRegions.Digraph

variable {α β : Type} {graph : Digraph α} {direction : Direction} {u v w x : Nat}
  {path : List Nat}

/-- A walk that passes no vertex twice and whose end leads back to its start. -/
def Cycle (graph : Digraph α) (path : List Nat) : Prop :=
  path.Nodup ∧ ∃ v w, graph.Walk .forward v w path ∧ v ∈ graph.successors w

/-- Every cycle that the root reaches has a vertex that dominates all of it. -/
def HeadedCycles (graph : Digraph α) : Prop :=
  ∀ path, graph.Cycle path → (∃ v ∈ path, graph.Reaches .forward root v) →
    ∃ head ∈ path, ∀ v ∈ path, graph.Dominates .forward head v

/-! ## Walks in pieces -/

theorem Walk.start_mem (walk : graph.Walk direction u v path) : u ∈ path := by
  cases walk with
  | stay | step => exact List.mem_cons_self

theorem Walk.append {first second : List Nat} (walk : graph.Walk direction u v first)
    (edge : w ∈ graph.neighbours direction v) (rest : graph.Walk direction w x second) :
    graph.Walk direction u x (first ++ second) := by
  induction walk with
  | stay v => exact .step edge rest
  | step first _ inductionHypothesis => exact .step first (inductionHypothesis edge)

/-- A walk cut in front of a vertex that it passes. -/
theorem Walk.split (walk : graph.Walk direction u w path) (member : x ∈ path) :
    ∃ before after, path = before ++ after ∧ graph.Walk direction x w after ∧
      (before = [] ∧ u = x ∨
        ∃ y, graph.Walk direction u y before ∧ x ∈ graph.neighbours direction y) := by
  induction walk with
  | stay v =>
      rw [List.mem_singleton] at member
      subst member
      exact ⟨[], [x], rfl, .stay x, .inl ⟨rfl, rfl⟩⟩
  | @step u v w path edge rest inductionHypothesis =>
      by_cases first : u = x
      · subst first
        exact ⟨[], u :: path, rfl, .step edge rest, .inl ⟨rfl, rfl⟩⟩
      · have later := (List.mem_cons.mp member).resolve_left fun same => first same.symm
        obtain ⟨before, after, rfl, onward, start⟩ := inductionHypothesis later
        refine ⟨u :: before, after, rfl, onward, .inr ?_⟩
        rcases start with ⟨rfl, rfl⟩ | ⟨y, walk, last⟩
        · exact ⟨u, .stay u, edge⟩
        · exact ⟨y, .step edge walk, last⟩

/-- What can be walked to can be walked to without passing a vertex twice. -/
theorem exists_simple_walk {holds : Nat → Prop}
    (reaches : Relation.ReflTransGen
      (fun a b => graph.Edge direction a b ∧ holds b) u v) :
    ∃ path, graph.Walk direction u v path ∧ path.Nodup ∧ ∀ x ∈ path, x = u ∨ holds x := by
  induction reaches using Relation.ReflTransGen.head_induction_on with
  | refl => exact ⟨[v], .stay v, by simp, fun x member => .inl (by simpa using member)⟩
  | @head u next edge rest inductionHypothesis =>
      obtain ⟨path, walk, distinct, along⟩ := inductionHypothesis
      have holding : ∀ x ∈ path, holds x := fun x member =>
        (along x member).elim (fun same => same ▸ edge.2) id
      by_cases again : u ∈ path
      · -- The walk comes back to its start: what lies between is left out.
        obtain ⟨before, after, rfl, onward, _⟩ := walk.split again
        refine ⟨after, onward, (List.nodup_append.mp distinct).2.1, fun x member => .inr ?_⟩
        exact holding x (List.mem_append_right before member)
      · refine ⟨u :: path, .step edge.1 walk, List.nodup_cons.mpr ⟨again, distinct⟩, ?_⟩
        intro x member
        exact (List.mem_cons.mp member).imp id (holding x)

/-! ## Cycles -/

/-- A cycle may start at any of its vertices. -/
theorem Cycle.rotate (cycle : graph.Cycle path) (member : x ∈ path) :
    ∃ other y, other.Perm path ∧ graph.Walk .forward x y other ∧ x ∈ graph.successors y := by
  obtain ⟨_, v, w, walk, back⟩ := cycle
  obtain ⟨before, after, rfl, onward, ⟨rfl, rfl⟩ | ⟨y, start, edge⟩⟩ := walk.split member
  · exact ⟨after, w, .refl _, onward, back⟩
  · exact ⟨after ++ before, y, List.perm_append_comm, onward.append back start, edge⟩

/-- Every vertex of a cycle leads somewhere. -/
theorem Cycle.successors_ne_nil (cycle : graph.Cycle path) (member : x ∈ path) :
    graph.successors x ≠ [] := by
  obtain ⟨_, y, _, walk, back⟩ := cycle.rotate member
  cases walk with
  | stay => exact List.ne_nil_of_mem back
  | step edge _ => exact List.ne_nil_of_mem edge

/-- A walk to a vertex that leads somewhere uses only edges to such vertices. -/
theorem Walk.of_edges {changed : Digraph β}
    (edges : ∀ {u v}, v ∈ changed.successors u → changed.successors v ≠ [] →
      v ∈ graph.successors u)
    (walk : changed.Walk .forward u w path) (onward : changed.successors w ≠ []) :
    graph.Walk .forward u w path := by
  induction walk with
  | stay v => exact .stay v
  | @step u v w path edge rest inductionHypothesis =>
      refine .step (edges edge ?_) (inductionHypothesis onward)
      cases rest with
      | stay => exact onward
      | step next _ => exact List.ne_nil_of_mem next

/-- Heads of cycles are kept when no edge is added but to sinks. -/
theorem HeadedCycles.of_edges {changed : Digraph β} (headed : graph.HeadedCycles)
    (edges : ∀ {u v}, v ∈ changed.successors u → changed.successors v ≠ [] →
      v ∈ graph.successors u) : changed.HeadedCycles := by
  intro path cycle ⟨x, inCycle, route, reaches⟩
  obtain ⟨distinct, v, w, walk, back⟩ := cycle
  have onward {y : Nat} (member : y ∈ path) : changed.successors y ≠ [] :=
    Cycle.successors_ne_nil ⟨distinct, v, w, walk, back⟩ member
  obtain ⟨head, isHead, dominates⟩ := headed path
    ⟨distinct, v, w, walk.of_edges edges (onward walk.end_mem), edges back (onward walk.start_mem)⟩
    ⟨x, inCycle, route, reaches.of_edges edges (onward inCycle)⟩
  refine ⟨head, isHead, fun y member other walkToY => ?_⟩
  exact dominates y member other (walkToY.of_edges edges (onward member))

end FlowRegions.Digraph
