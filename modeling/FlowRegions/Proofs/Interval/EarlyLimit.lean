import FlowRegions.Proofs.Interval.Merging

/-!
Contract: what self-edges, and edges from vertices that are not reached, do to the limit.

They have no part in the classes of vertices that come together, and no derived graph
has any.  The first graph may have both, and whether it is a limit is asked before
anything is derived from it.  Each of these edges keeps its target out of every
interval, so that a graph may stop at itself that would be derived from without them.
It stops at itself exactly when no vertex is entered from one other vertex only.

Owns:
- `Digraph.SoleEntered`, and that a graph is a limit exactly when no vertex is;
- `Digraph.SameFlow`, for graphs that differ in these edges only, and how their limits
  compare;
- when a self-edge changes the limit, and when detaching the vertices that are not
  reached does.
-/

namespace FlowRegions.Digraph

variable {α β : Type} {graph : Digraph α} {other : Digraph β}

/-! ## Graphs that stop at themselves -/

/-- A vertex that is reached and entered from one vertex only, which is another one. -/
def SoleEntered (graph : Digraph α) (v : Nat) : Prop :=
  v ≠ root ∧ graph.Reaches .forward root v ∧ ∃ p, p ≠ v ∧ ∀ q ∈ graph.predecessors v, q = p

theorem exists_entrance (consistent : graph.Consistent) {v : Nat}
    (reaches : graph.Reaches .forward root v) (notRoot : v ≠ root) :
    ∃ p, p ∈ graph.predecessors v := by
  cases reaches_iff.mp reaches with
  | refl => exact absurd rfl notRoot
  | tail _ edge => exact ⟨_, consistent.mem_predecessors.mpr edge⟩

theorem isLimit_iff_not_soleEntered (consistent : graph.Consistent)
    (attached : ∀ {u v}, v ∈ graph.successors u → graph.isDetached v = false) :
    isLimit graph.intervals = true ↔ ∀ v, ¬ graph.SoleEntered v := by
  constructor
  · intro limit v ⟨notRoot, reaches, p, different, sole⟩
    have isHeader := (isLimit_intervals_iff_header consistent attached).mp limit v reaches
    obtain ⟨q, enters⟩ := exists_entrance consistent reaches notRoot
    have isAttached := attached (consistent.mem_predecessors.mp enters)
    have member : graph.Absorbed p v :=
      .absorb notRoot isAttached enters fun q enters => sole q enters ▸ .head
    exact different (isHeader.eq_of_absorbed member).symm
  · intro none
    obtain ⟨heads, headers, same⟩ := exists_headersOf consistent
    rw [same, isLimit_iff headers consistent]
    intro head header v member
    -- The first vertex to be absorbed would be entered from the header only.
    induction member with
    | head => rfl
    | @absorb v p notRoot isAttached entered inside inductionHypothesis =>
        by_contra different
        have member : graph.Absorbed head v := .absorb notRoot isAttached entered inside
        have reaches := (header.reaches consistent).trans
          (reaches_of_closure (member.closure consistent))
        exact none v ⟨notRoot, reaches, head, fun same => different same.symm, inductionHypothesis⟩

/-! ## Graphs with the same flow -/

/-- From the vertices that are reached lead the same edges, self-edges apart. -/
def SameFlow (graph : Digraph α) (other : Digraph β) : Prop :=
  ∀ u v, graph.Reaches .forward root u → u ≠ v →
    (v ∈ graph.successors u ↔ v ∈ other.successors u)

namespace SameFlow

variable (same : graph.SameFlow other)
include same

theorem reaches_iff {v : Nat} :
    graph.Reaches .forward root v ↔ other.Reaches .forward root v := by
  constructor
  · intro reaches
    rw [Digraph.reaches_iff] at reaches
    induction reaches with
    | refl => exact .refl root
    | @tail u v before edge inductionHypothesis =>
        by_cases loop : u = v
        · exact loop ▸ inductionHypothesis
        · exact inductionHypothesis.edge
            ((same u v (Digraph.reaches_iff.mpr before) loop).mp edge)
  · intro reaches
    rw [Digraph.reaches_iff] at reaches
    induction reaches with
    | refl => exact .refl root
    | @tail u v _ edge inductionHypothesis =>
        by_cases loop : u = v
        · exact loop ▸ inductionHypothesis
        · exact inductionHypothesis.edge ((same u v inductionHypothesis loop).mpr edge)

theorem symm : other.SameFlow graph := fun u v reaches different =>
  (same u v (same.reaches_iff.mpr reaches) different).symm

theorem merges {classes : Setoid Nat} (merges : graph.Merges classes) : other.Merges classes := by
  intro v p notRoot reaches edge entered
  by_cases loop : p = v
  · exact loop ▸ classes.refl' p
  · have reachesP := same.reaches_iff.mpr reaches
    refine merges v p notRoot reachesP ((same p v reachesP loop).mpr edge)
      fun q reachesQ edgeQ => ?_
    by_cases loopQ : q = v
    · exact .inl (loopQ ▸ classes.refl' q)
    · exact entered q (same.reaches_iff.mp reachesQ) ((same q v reachesQ loopQ).mp edgeQ)

theorem reachedCount_eq : graph.reachedCount = other.reachedCount :=
  congrArg Set.ncard (Set.ext fun _ => same.reaches_iff)

theorem mergedCount_eq : graph.mergedCount = other.mergedCount := by
  have classes : graph.merging = other.merging :=
    congrArg sInf (Set.ext fun _ => ⟨same.merges, same.symm.merges⟩)
  have reached : {v | graph.Reaches .forward root v} = {v | other.Reaches .forward root v} :=
    Set.ext fun _ => same.reaches_iff
  rw [mergedCount, mergedCount, classes, reached]

variable (consistent : graph.Consistent) (consistent' : other.Consistent)
  (attached : ∀ {u v}, v ∈ graph.successors u → graph.isDetached v = false)
  (attached' : ∀ {u v}, v ∈ other.successors u → other.isDetached v = false)
include consistent consistent' attached attached'

/-- Graphs with the same flow have limits of one size if both stop at themselves or
neither does. -/
theorem limitVertexCount_eq (alike : isLimit graph.intervals = isLimit other.intervals) :
    other.limitVertexCount = graph.limitVertexCount := by
  rw [Digraph.limitVertexCount_eq consistent attached,
    Digraph.limitVertexCount_eq consistent' attached', alike, same.reachedCount_eq,
    same.mergedCount_eq]

/-- If only the second stops at itself, its limit is larger and counts as not reducible. -/
theorem limitVertexCount_lt (more : isLimit graph.intervals = false)
    (limit : isLimit other.intervals = true) :
    graph.limitVertexCount < other.limitVertexCount ∧
      other.limitVertexCount = graph.reachedCount ∧ other.isReducible = false := by
  have atSelf : other.limitVertexCount = graph.reachedCount := by
    rw [Digraph.limitVertexCount_eq consistent' attached', if_pos limit, same.reachedCount_eq]
  have fewer : graph.limitVertexCount < graph.reachedCount := by
    rw [Digraph.limitVertexCount_eq consistent attached, if_neg (by simp [more])]
    exact mergedCount_lt consistent attached more
  refine ⟨atSelf ▸ fewer, atSelf, ?_⟩
  obtain ⟨v, notRoot, reaches, -⟩ : ∃ v, graph.SoleEntered v := by
    by_contra none
    push Not at none
    rw [(isLimit_iff_not_soleEntered consistent attached).mpr none] at more
    cases more
  have several : 1 < graph.reachedCount := (Set.one_lt_ncard_iff (finite_reached consistent)).mpr
    ⟨v, root, reaches, .refl root, notRoot⟩
  rw [isReducible, beq_eq_false_iff_ne, atSelf]
  exact several.ne'

end SameFlow

/-! ## Self-edges -/

section SelfEdge

variable {v : Nat} (within : v < graph.size)
include within

theorem mem_successors_addEdge_self {u w : Nat} :
    w ∈ (graph.addEdge v v).successors u ↔ w ∈ graph.successors u ∨ u = v ∧ w = v := by
  rw [successors_addEdge]
  by_cases isSource : v = u
  · subst isSource
    simp [within]
  · have notSource : u ≠ v := fun same => isSource same.symm
    simp [isSource, notSource]

theorem sameFlow_addEdge_self : graph.SameFlow (graph.addEdge v v) := by
  intro u w _ different
  rw [mem_successors_addEdge_self within]
  refine ⟨.inl, fun edge => edge.resolve_right ?_⟩
  rintro ⟨rfl, rfl⟩
  exact different rfl

/-- A vertex with a self-edge is entered from itself too. -/
theorem soleEntered_addEdge_self_iff {w : Nat} :
    (graph.addEdge v v).SoleEntered w ↔ graph.SoleEntered w ∧ w ≠ v := by
  have same := sameFlow_addEdge_self within
  by_cases isLoop : w = v
  · subst isLoop
    refine ⟨fun ⟨_, _, p, different, sole⟩ => absurd (sole w ?_).symm different,
      fun ⟨_, different⟩ => absurd rfl different⟩
    rw [predecessors_addEdge, if_pos ⟨rfl, within⟩]
    exact List.mem_append_right _ (List.mem_singleton_self w)
  · have notTarget : ¬ (v = w ∧ w < graph.size) := fun target => isLoop target.1.symm
    simp only [SoleEntered, ← same.reaches_iff, predecessors_addEdge, if_neg notTarget]
    exact ⟨fun entered => ⟨entered, isLoop⟩, fun entered => entered.1⟩

end SelfEdge

/-- A self-edge changes the limit exactly when its vertex is the only one that is entered
from one other vertex.  The graph then stops at itself and counts as not reducible. -/
theorem limitVertexCount_addEdge_self (built : graph.Built)
    (attached : ∀ {u v}, v ∈ graph.successors u →
      graph.isDetached u = false ∧ graph.isDetached v = false)
    {v : Nat} (reaches : graph.Reaches .forward root v) (isAttached : graph.isDetached v = false) :
    ((∀ w, graph.SoleEntered w ↔ w = v) →
      graph.limitVertexCount < (graph.addEdge v v).limitVertexCount ∧
      (graph.addEdge v v).limitVertexCount = graph.reachedCount ∧
      (graph.addEdge v v).isReducible = false) ∧
    ((¬ ∀ w, graph.SoleEntered w ↔ w = v) →
      (graph.addEdge v v).limitVertexCount = graph.limitVertexCount ∧
      (graph.addEdge v v).isReducible = graph.isReducible) := by
  have consistent := built.consistent
  have within := reaches.lt_size consistent (start_lt_size consistent .forward)
  have same := sameFlow_addEdge_self within
  have consistent' := consistent.addEdge within within
  have attachedTarget {u w : Nat} (edge : w ∈ graph.successors u) : graph.isDetached w = false :=
    (attached edge).2
  have attached' {u w : Nat} (edge : w ∈ (graph.addEdge v v).successors u) :
      (graph.addEdge v v).isDetached w = false := by
    rw [isDetached_eq_marks, marks_addEdge, ← isDetached_eq_marks]
    rcases (mem_successors_addEdge_self within).mp edge with old | ⟨_, rfl⟩
    · exact attachedTarget old
    · exact isAttached
  have stops := isLimit_iff_not_soleEntered consistent attachedTarget
  have stops' := isLimit_iff_not_soleEntered consistent' attached'
  simp only [soleEntered_addEdge_self_iff within] at stops'
  constructor
  · intro only
    refine same.limitVertexCount_lt consistent consistent' attachedTarget attached' ?_ ?_
    · exact Bool.eq_false_iff.mpr fun limit => stops.mp limit v ((only v).mpr rfl)
    · exact stops'.mpr fun w entered => entered.2 ((only w).mp entered.1)
  · intro notOnly
    have alike : isLimit graph.intervals = isLimit (graph.addEdge v v).intervals := by
      rw [Bool.eq_iff_iff, stops, stops']
      refine ⟨fun none w entered => none w entered.1, fun none w entered => notOnly fun x => ?_⟩
      have isLoop {x : Nat} (enteredX : graph.SoleEntered x) : x = v :=
        of_not_not fun different => none x ⟨enteredX, different⟩
      exact ⟨isLoop, fun isV => by rwa [isV, ← isLoop entered]⟩
    have sameCount :=
      same.limitVertexCount_eq consistent consistent' attachedTarget attached' alike
    exact ⟨sameCount, by rw [isReducible, isReducible, sameCount]⟩

def singleStep : Digraph Unit :=
  ofEdges 1 [(0, 2)]

/-- It is reducible, and with a self-edge it is not. -/
theorem limitVertexCount_addEdge_self_singleStep :
    (∀ w, singleStep.SoleEntered w ↔ w = 2) ∧
      singleStep.limitVertexCount = 1 ∧ singleStep.isReducible = true ∧
      (singleStep.addEdge 2 2).limitVertexCount = singleStep.reachedCount ∧
      (singleStep.addEdge 2 2).isReducible = false := by
  have built : singleStep.Built := built_ofEdges (by decide)
  have reaches : singleStep.Reaches .forward root 2 :=
    (Reaches.refl root).edge (show 2 ∈ singleStep.successors root by decide +kernel)
  have attached : ∀ u < singleStep.size, ∀ v ∈ singleStep.successors u,
      singleStep.isDetached u = false ∧ singleStep.isDetached v = false := by
    decide +kernel
  have entrances : ∀ w < singleStep.size, ∀ q ∈ singleStep.predecessors w, w = 2 ∧ q = 0 := by
    decide +kernel
  have only (w : Nat) : singleStep.SoleEntered w ↔ w = 2 := by
    constructor
    · intro ⟨notRoot, reachesW, _⟩
      obtain ⟨q, enters⟩ := exists_entrance built.consistent reachesW notRoot
      exact (entrances w (lt_size_of_mem_neighbours enters) q enters).1
    · rintro rfl
      exact ⟨by decide, reaches, 0, by decide, fun q enters =>
        (entrances 2 (by decide +kernel) q enters).2⟩
  obtain ⟨-, atSelf, notReducible⟩ := (limitVertexCount_addEdge_self built
    (fun edge => attached _ (lt_size_of_mem_neighbours edge) _ edge) reaches
    (by decide +kernel)).1 only
  exact ⟨only, by decide +kernel, by decide +kernel, atSelf, notReducible⟩

/-! ## Vertices that are not reached -/

section Stray

variable {stray : List Nat}
  (isStray : ∀ v, v ∈ stray ↔ v < graph.size ∧ ¬ graph.Reaches .forward root v)
include isStray

theorem not_mem_stray {v : Nat} (reaches : graph.Reaches .forward root v) : v ∉ stray :=
  fun member => ((isStray v).mp member).2 reaches

theorem sameFlow_isolateAll (consistent : graph.Consistent) :
    (graph.isolateAll stray).SameFlow graph := by
  refine SameFlow.symm fun u v reaches _ => ?_
  rw [consistent.successors_isolateAll, if_neg (not_mem_stray isStray reaches), List.mem_filter,
    decide_eq_true_eq]
  exact ⟨fun edge => ⟨edge, not_mem_stray isStray (reaches.edge edge)⟩, And.left⟩

/-- What is entered from one vertex only is still so when others are detached. -/
theorem SoleEntered.isolateAll (consistent : graph.Consistent) {v : Nat}
    (entered : graph.SoleEntered v) : (graph.isolateAll stray).SoleEntered v := by
  obtain ⟨notRoot, reaches, p, different, sole⟩ := entered
  have same := sameFlow_isolateAll isStray consistent
  refine ⟨notRoot, same.reaches_iff.mpr reaches, p, different, fun q enters => sole q ?_⟩
  rw [(consistent.isolateAll stray).mem_predecessors, consistent.successors_isolateAll] at enters
  rw [consistent.mem_predecessors]
  split at enters
  · cases enters
  · exact (List.mem_filter.mp enters).1

end Stray

/-- Detaching the vertices that are not reached changes the limit exactly when no vertex
was entered from one other vertex only and some vertex is afterwards.  The graph then
stopped at itself and counted as not reducible. -/
theorem limitVertexCount_isolateAll (built : graph.Built)
    (attached : ∀ {u v}, v ∈ graph.successors u →
      graph.isDetached u = false ∧ graph.isDetached v = false)
    {stray : List Nat}
    (isStray : ∀ v, v ∈ stray ↔ v < graph.size ∧ ¬ graph.Reaches .forward root v) :
    ((∀ w, ¬ graph.SoleEntered w) → (∃ w, (graph.isolateAll stray).SoleEntered w) →
      (graph.isolateAll stray).limitVertexCount < graph.limitVertexCount ∧
      graph.limitVertexCount = graph.reachedCount ∧ graph.isReducible = false) ∧
    ((∃ w, graph.SoleEntered w) ∨ (∀ w, ¬ (graph.isolateAll stray).SoleEntered w) →
      (graph.isolateAll stray).limitVertexCount = graph.limitVertexCount ∧
      (graph.isolateAll stray).isReducible = graph.isReducible) := by
  have consistent := built.consistent
  have same := sameFlow_isolateAll isStray consistent
  have consistent' := consistent.isolateAll stray
  have attachedTarget {u w : Nat} (edge : w ∈ graph.successors u) : graph.isDetached w = false :=
    (attached edge).2
  have attached' {u w : Nat} (edge : w ∈ (graph.isolateAll stray).successors u) :
      (graph.isolateAll stray).isDetached w = false := by
    rw [consistent.successors_isolateAll] at edge
    split at edge
    · cases edge
    · obtain ⟨old, kept⟩ := List.mem_filter.mp edge
      rw [isDetached_eq_marks, marks_isolateAll, if_neg (of_decide_eq_true kept),
        ← isDetached_eq_marks]
      exact attachedTarget old
  have stops := isLimit_iff_not_soleEntered consistent attachedTarget
  have stops' := isLimit_iff_not_soleEntered consistent' attached'
  constructor
  · intro none ⟨w, entered⟩
    have larger := same.limitVertexCount_lt consistent' consistent attached' attachedTarget
      (Bool.eq_false_iff.mpr fun limit => stops'.mp limit w entered) (stops.mpr none)
    rwa [same.reachedCount_eq] at larger
  · intro settled
    have alike : isLimit (graph.isolateAll stray).intervals = isLimit graph.intervals := by
      rw [Bool.eq_iff_iff, stops, stops']
      refine ⟨fun none w entered => none w (entered.isolateAll isStray consistent), fun none => ?_⟩
      exact settled.resolve_left fun ⟨w, entered⟩ => none w entered
    have sameCount :=
      same.limitVertexCount_eq consistent' consistent attached' attachedTarget alike
    exact ⟨sameCount.symm, by rw [isReducible, isReducible, sameCount]⟩

/-- One vertex, entered from the root and from a vertex that is not reached. -/
def sideStep : Digraph Unit :=
  ofEdges 2 [(0, 2), (3, 2)]

/-- It is not reducible, and without the vertex that is not reached it is. -/
theorem limitVertexCount_isolateAll_sideStep :
    (∀ v, v ∈ [1, 3] ↔ v < sideStep.size ∧ ¬ sideStep.Reaches .forward root v) ∧
      sideStep.limitVertexCount = sideStep.reachedCount ∧ sideStep.isReducible = false ∧
      (sideStep.isolateAll [1, 3]).limitVertexCount = 1 ∧
      (sideStep.isolateAll [1, 3]).isReducible = true := by
  have built : sideStep.Built := built_ofEdges (by decide)
  have consistent := built.consistent
  have reaches : sideStep.Reaches .forward root 2 :=
    (Reaches.refl root).edge (show 2 ∈ sideStep.successors root by decide +kernel)
  have attached : ∀ u < sideStep.size, ∀ v ∈ sideStep.successors u,
      sideStep.isDetached u = false ∧ sideStep.isDetached v = false := by
    decide +kernel
  have entered {w : Nat} (notRoot : w ≠ root) (reachesW : sideStep.Reaches .forward root w) :
      w = 2 := by
    obtain ⟨q, enters⟩ := exists_entrance consistent reachesW notRoot
    have target : ∀ w < sideStep.size, ∀ q ∈ sideStep.predecessors w, w = 2 := by decide +kernel
    exact target w (lt_size_of_mem_neighbours enters) q enters
  have isStray (v : Nat) :
      v ∈ [1, 3] ↔ v < sideStep.size ∧ ¬ sideStep.Reaches .forward root v := by
    have size : sideStep.size = 4 := by decide +kernel
    constructor
    · intro member
      refine ⟨by simp at member; omega, fun reachesV => ?_⟩
      have isTwo := entered (by rintro rfl; revert member; decide) reachesV
      subst isTwo
      revert member
      decide
    · rintro ⟨within, unreached⟩
      have notRoot : v ≠ 0 := fun isRoot => unreached (isRoot ▸ .refl root)
      have notTwo : v ≠ 2 := fun isTwo => unreached (isTwo ▸ reaches)
      simp
      omega
  have none (w : Nat) : ¬ sideStep.SoleEntered w := by
    intro ⟨notRoot, reachesW, p, _, sole⟩
    obtain rfl := entered notRoot reachesW
    have first := sole 0 (by decide +kernel)
    have second := sole 3 (by decide +kernel)
    omega
  have afterwards : (sideStep.isolateAll [1, 3]).SoleEntered 2 := by
    refine ⟨by decide, ?_, 0, by decide, by decide +kernel⟩
    exact (sameFlow_isolateAll isStray consistent).reaches_iff.mpr reaches
  obtain ⟨-, atSelf, notReducible⟩ := (limitVertexCount_isolateAll built
    (fun edge => attached _ (lt_size_of_mem_neighbours edge) _ edge) isStray).1 none ⟨2, afterwards⟩
  exact ⟨isStray, atSelf, notReducible, by decide +kernel, by decide +kernel⟩

end FlowRegions.Digraph
