import FlowRegions.Proofs.Digraph.Requests
import FlowRegions.Proofs.Lists
import FlowRegions.Proofs.Routine.Flow

/-!
Contract: how the graph of a valid routine is built.

Vertices are added first, then the root is linked to the entry, then each block is linked
to its targets, by ascending position.  All the indices that are used name vertices, so no
request is refused; and every vertex lists its predecessors by ascending index.

Owns:
- `Routine.requests`, and that they are granted;
- `Digraph.Ascending`, the order of predecessors;
- `Routine.Mirrored`, what the graph of a routine looks like.
-/

namespace FlowRegions

open FlowRegions.Digraph (root terminator)

/-! ## The order of predecessors -/

namespace Digraph

variable {α : Type} {graph : Digraph α} {bound : Nat}

/-- Every vertex lists its predecessors by ascending index, none above the bound. -/
def Ascending (graph : Digraph α) (bound : Nat) : Prop :=
  ∀ v, (graph.predecessors v).Pairwise (· ≤ ·) ∧ ∀ u ∈ graph.predecessors v, u ≤ bound

theorem Ascending.mono (ascending : graph.Ascending bound) {later : Nat} (le : bound ≤ later) :
    graph.Ascending later :=
  fun v => ⟨(ascending v).1, fun u member => Nat.le_trans ((ascending v).2 u member) le⟩

theorem Ascending.addEdge (ascending : graph.Ascending bound) {source : Nat}
    (later : bound ≤ source) (target : Nat) : (graph.addEdge source target).Ascending source := by
  intro v
  obtain ⟨sorted, below⟩ := ascending.mono later v
  rw [predecessors_addEdge]
  split
  · refine ⟨List.pairwise_append.mpr ⟨sorted, List.pairwise_singleton _ _, ?_⟩, ?_⟩
    · intro u member other isSource
      rw [List.mem_singleton.mp isSource]
      exact below u member
    · intro u member
      rcases List.mem_append.mp member with old | new
      · exact below u old
      · exact Nat.le_of_eq (List.mem_singleton.mp new)
  · exact ⟨sorted, below⟩

theorem Ascending.addEdges (ascending : graph.Ascending bound) {source : Nat}
    (later : bound ≤ source) (targets : List Nat) :
    (graph.addEdges source targets).Ascending source := by
  induction targets generalizing graph bound with
  | nil => exact ascending.mono later
  | cons target rest inductionHypothesis =>
      exact inductionHypothesis (ascending.addEdge later target) (Nat.le_refl source)

theorem Ascending.linkAll {first : Nat} (ascending : graph.Ascending (first + 1))
    (targets : List (List Nat)) :
    (graph.linkAll targets first).Ascending (first + targets.length + 1) := by
  induction targets generalizing graph first with
  | nil => exact ascending
  | cons head rest inductionHypothesis =>
      rw [linkAll_cons, List.length_cons, ← Nat.add_assoc, Nat.add_right_comm first]
      exact inductionHypothesis (ascending.addEdges (Nat.le_succ _) head)

theorem predecessors_edgeless (payloads : List α) (v : Nat) :
    (edgeless payloads).predecessors v = [] := by
  rw [List.eq_nil_iff_forall_not_mem]
  intro u member
  rw [(consistent_edgeless payloads).mem_predecessors, successors_edgeless] at member
  cases member

end Digraph

namespace Routine

variable {σ ε : Type} {routine : Routine σ ε}

/-! ## Requests -/

def requests (routine : Routine σ ε) : List (Digraph.Request (Block σ ε)) :=
  routine.present.map .addVertex ++ .link root (vertexAt routine.entry.toNat) ::
    routine.present.zipIdx.flatMap fun (block, position) =>
      (edgesOf block).map (.link (vertexAt position))

structure Mirrored (routine : Routine σ ε) (graph : Digraph (Block σ ε)) : Prop where
  size_eq : graph.size = routine.blocks.size + 2
  fromRoot : graph.successors root = [routine.entry.toNat + 2]
  fromBlock : ∀ {position block}, routine.blocks[position]? = some (some block) →
    graph.successors (position + 2) =
      if block.targets = [] then [terminator]
      else block.targets.map fun target => target.toNat + 2
  fromTerminator : graph.successors terminator = []
  ascending : ∀ v, (graph.predecessors v).Pairwise (· ≤ ·)
  counted : ∀ u v, (graph.predecessors v).count u = (graph.successors u).count v

section Valid

variable (valid : routine.fault? = none)
include valid

/-- The edges of a block lead to vertices. -/
theorem edgesOf_within {position : Nat} {block : Block σ ε}
    (found : routine.present[position]? = some block) {t : Nat} (edge : t ∈ edgesOf block) :
    t < routine.blocks.size + 2 := by
  rw [present_getElem? valid, Option.join_eq_some_iff] at found
  rcases edgesOf_cases valid found with ⟨_, edges⟩ | ⟨_, _, within⟩
  · rw [edges, List.mem_singleton] at edge
    rw [edge, terminator]
    omega
  · exact (within t edge).2

/-- No request is refused. -/
theorem requestAll_requests :
    Digraph.empty.requestAll routine.requests = .ok routine.flow := by
  have size : (Digraph.edgeless routine.present).size = routine.blocks.size + 2 := by
    rw [Digraph.size_edgeless, length_present valid]
  have entry := ((names_iff routine.entry).mp (entry_named valid)).2
  rw [requests, Digraph.requestAll_append (Digraph.requestAll_vertices _)]
  change (Digraph.edgeless routine.present).requestAll _ = _
  rw [Digraph.requestAll_cons (Digraph.request_link (by rw [size, root]; omega)
    (by rw [size, vertexAt]; omega))]
  refine Digraph.requestAll_flatMap ?_
  rintro ⟨block, position⟩ member before sameSize
  rw [Digraph.size_addEdge, size] at sameSize ⊢
  have found := List.mem_zipIdx_iff_getElem?.mp member
  have within := lt_length_of_getElem? found
  rw [length_present valid] at within
  refine ⟨Digraph.requestAll_links ?_ fun t edge => ?_, ?_⟩
  · rw [sameSize]
    exact Nat.add_lt_add_right within 2
  · rw [sameSize]
    exact edgesOf_within valid found edge
  · rw [Digraph.size_addEdges, sameSize]

theorem built_flow : routine.flow.Built :=
  Digraph.Built.empty.requestAll (requestAll_requests valid)

omit valid in
theorem ascending_flow (v : Nat) : (routine.flow.predecessors v).Pairwise (· ≤ ·) := by
  have start : (Digraph.edgeless routine.present).Ascending root := by
    intro v
    rw [Digraph.predecessors_edgeless]
    exact ⟨List.Pairwise.nil, nofun⟩
  rw [flow_eq]
  exact (((start.addEdge (Nat.le_refl _) _).mono (Nat.zero_le _)).linkAll _ v).1

theorem mirrored_flow : routine.Mirrored routine.flow where
  size_eq := size_flow valid
  fromRoot := successors_root valid
  fromBlock := by
    intro position block isBlock
    rw [successors_block valid isBlock]
    rcases edgesOf_cases valid isBlock with ⟨none, edges⟩ | ⟨some, edges, _⟩
    · rw [if_pos none, edges]
    · rw [if_neg some, edges]
  fromTerminator := by
    rw [successors_flow valid]
    rfl
  ascending := ascending_flow
  counted := fun u v => ((consistent_flow valid).symmetric u v).symm

end Valid

end Routine

end FlowRegions
