import FlowRegions.Proofs.Digraph.Consistency
import Mathlib.Logic.Relation

/-!
Contract: walks along the edges of a graph, and dominance as a statement about
them.

Owns:
- `Digraph.Walk`, a walk with the list of its vertices, and `Digraph.Reaches`;
- `Digraph.Dominates`, which no algorithm enters: every walk from the start of
  a direction to a vertex passes through another;
- the reading of both as reflexive transitive closures, which is the form in
  which walks are extended and cut.
-/

namespace FlowRegions.Digraph

variable {α : Type}

/-- A walk along the edges of a direction, with the vertices it passes. -/
inductive Walk (graph : Digraph α) (direction : Direction) : Nat → Nat → List Nat → Prop where
  | stay (v : Nat) : Walk graph direction v v [v]
  | step {u v w : Nat} {path : List Nat} (edge : v ∈ graph.neighbours direction u)
      (rest : Walk graph direction v w path) : Walk graph direction u w (u :: path)

def Reaches (graph : Digraph α) (direction : Direction) (u v : Nat) : Prop :=
  ∃ path, graph.Walk direction u v path

/-- Every walk from the start of the direction to `m` passes through `n`. -/
def Dominates (graph : Digraph α) (direction : Direction) (n m : Nat) : Prop :=
  ∀ path, graph.Walk direction (start direction) m path → n ∈ path

def Edge (graph : Digraph α) (direction : Direction) (u v : Nat) : Prop :=
  v ∈ graph.neighbours direction u

def EdgePast (graph : Digraph α) (direction : Direction) (n u v : Nat) : Prop :=
  graph.Edge direction u v ∧ v ≠ n

variable {graph : Digraph α} {direction : Direction}

theorem reaches_iff {u v : Nat} :
    graph.Reaches direction u v ↔ Relation.ReflTransGen (graph.Edge direction) u v := by
  constructor
  · rintro ⟨path, walk⟩
    induction walk with
    | stay v => exact .refl
    | step edge rest inductionHypothesis => exact .head edge inductionHypothesis
  · intro reaches
    induction reaches using Relation.ReflTransGen.head_induction_on with
    | refl => exact ⟨[v], .stay v⟩
    | head edge rest inductionHypothesis =>
        obtain ⟨path, walk⟩ := inductionHypothesis
        exact ⟨_ :: path, .step edge walk⟩

theorem Reaches.refl (v : Nat) : graph.Reaches direction v v :=
  ⟨[v], .stay v⟩

theorem Reaches.trans {u v w : Nat} (first : graph.Reaches direction u v)
    (second : graph.Reaches direction v w) : graph.Reaches direction u w :=
  reaches_iff.mpr ((reaches_iff.mp first).trans (reaches_iff.mp second))

theorem Reaches.edge {u v w : Nat} (first : graph.Reaches direction u v)
    (edge : w ∈ graph.neighbours direction v) : graph.Reaches direction u w :=
  reaches_iff.mpr ((reaches_iff.mp first).tail edge)

/-- No edge of a direction leads out of the graph. -/
def Contained (graph : Digraph α) (direction : Direction) : Prop :=
  ∀ v, ∀ w ∈ graph.neighbours direction v, w < graph.size

instance (graph : Digraph α) (direction : Direction) : Decidable (graph.Contained direction) :=
  decidable_of_iff (∀ v < graph.size, ∀ w ∈ graph.neighbours direction v, w < graph.size)
    ⟨fun within v w edge => within v (lt_size_of_mem_neighbours edge) w edge,
      fun contained v _ => contained v⟩

theorem Consistent.contained (consistent : graph.Consistent) (direction : Direction) :
    graph.Contained direction :=
  fun _ _ edge => consistent.mem_neighbours_lt edge

/-- What is reached stays inside a graph that no edge leads out of. -/
theorem Contained.lt_size_of_reaches (contained : graph.Contained direction) {u v : Nat}
    (reaches : graph.Reaches direction u v) (within : u < graph.size) : v < graph.size := by
  rw [reaches_iff] at reaches
  induction reaches with
  | refl => exact within
  | tail _ edge _ => exact contained _ _ edge

theorem Reaches.lt_size (consistent : graph.Consistent) {u v : Nat}
    (reaches : graph.Reaches direction u v) (within : u < graph.size) : v < graph.size :=
  (consistent.contained direction).lt_size_of_reaches reaches within

theorem start_lt_size (consistent : graph.Consistent) (direction : Direction) :
    start direction < graph.size := by
  have := consistent.atLeastTwo
  cases direction <;> simp only [start, root, terminator] <;> omega

/-! ## Walks that pass a vertex by -/

theorem Walk.end_mem {u v : Nat} {path : List Nat} (walk : graph.Walk direction u v path) :
    v ∈ path := by
  induction walk with
  | stay v => simp
  | step edge rest inductionHypothesis => exact List.mem_cons_of_mem _ inductionHypothesis

/-- A walk reaches every vertex it passes. -/
theorem Walk.reaches_of_mem {u v x : Nat} {path : List Nat}
    (walk : graph.Walk direction u v path) (member : x ∈ path) : graph.Reaches direction u x := by
  induction walk with
  | stay v =>
      rw [List.mem_singleton.mp member]
      exact .refl v
  | step edge rest inductionHypothesis =>
      rcases List.mem_cons.mp member with rfl | later
      · exact .refl _
      · exact ((Reaches.refl _).edge edge).trans (inductionHypothesis later)

/-- A walk that does not pass through `n`. -/
theorem exists_walk_past_iff {n u v : Nat} :
    (∃ path, graph.Walk direction u v path ∧ n ∉ path) ↔
      u ≠ n ∧ Relation.ReflTransGen (graph.EdgePast direction n) u v := by
  constructor
  · rintro ⟨path, walk, avoids⟩
    induction walk with
    | stay v =>
        exact ⟨fun equal => avoids (by simp [equal]), .refl⟩
    | step edge rest inductionHypothesis =>
        simp only [List.mem_cons, not_or] at avoids
        obtain ⟨notNext, restPast⟩ := inductionHypothesis avoids.2
        exact ⟨fun equal => avoids.1 equal.symm, .head ⟨edge, notNext⟩ restPast⟩
  · rintro ⟨notStart, past⟩
    induction past using Relation.ReflTransGen.head_induction_on with
    | refl => exact ⟨[v], .stay v, by simpa using fun equal => notStart equal.symm⟩
    | head edge rest inductionHypothesis =>
        obtain ⟨path, walk, avoids⟩ := inductionHypothesis edge.2
        exact ⟨_ :: path, .step edge.1 walk,
          by simpa [avoids] using fun equal => notStart equal.symm⟩

theorem not_dominates_iff {n m : Nat} :
    ¬ graph.Dominates direction n m ↔
      start direction ≠ n ∧
        Relation.ReflTransGen (graph.EdgePast direction n) (start direction) m := by
  rw [← exists_walk_past_iff]
  simp only [Dominates, not_forall, exists_prop]

theorem Dominates.refl (m : Nat) : graph.Dominates direction m m :=
  fun _ walk => walk.end_mem

/-- Only what is reachable dominates a reachable vertex. -/
theorem Dominates.reaches {n m : Nat} (dominates : graph.Dominates direction n m)
    (reaches : graph.Reaches direction (start direction) m) :
    graph.Reaches direction (start direction) n := by
  obtain ⟨path, walk⟩ := reaches
  exact walk.reaches_of_mem (dominates path walk)

end FlowRegions.Digraph
