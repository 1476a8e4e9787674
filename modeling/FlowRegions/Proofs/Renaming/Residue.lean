import FlowRegions.Proofs.Renaming.Rules

/-!
Contract: what is done when no rule applies, under new names.

The choice among edges goes by preorder numbers, which names keep, and by the
place in postorder.  Predecessors come in another order, and so do the vertices
of a loop body; both are sorted by preorder, counted, or asked for some member.

Owns:
- `RegionGraph.Gathers`, the body of a natural loop as the least set that is
  closed under predecessors short of the header;
- the sideways edge, the natural loops, the cut of a loop and the join edge of a
  renamed graph.
-/

namespace FlowRegions

open FlowRegions.Digraph (root terminator)

def Cut.relabel (name : Nat → Nat) (cut : Cut) : Cut where
  source := name cut.source
  target := name cut.target
  reason := cut.reason

/-- A fold that prefers items follows the names when the preference does. -/
theorem foldl_map_name {ι κ : Type} {turn : ι → κ} {prefer : Option ι → ι → Option ι}
    {prefer' : Option κ → κ → Option κ}
    (same : ∀ best x, prefer' (best.map turn) (turn x) = (prefer best x).map turn)
    (items : List ι) (best : Option ι) :
    (items.map turn).foldl prefer' (best.map turn) = (items.foldl prefer best).map turn := by
  induction items generalizing best with
  | nil => rfl
  | cons x rest inductionHypothesis =>
      rw [List.map_cons, List.foldl_cons, List.foldl_cons, same, inductionHypothesis]

/-- A fold that prefers items keeps to related items when the preference does. -/
theorem foldl_rel {ι κ : Type} {related : ι → κ → Prop} {prefer : Option ι → ι → Option ι}
    {prefer' : Option κ → κ → Option κ}
    (same : ∀ {best best' x x'}, Option.Rel related best best' → related x x' →
      Option.Rel related (prefer best x) (prefer' best' x'))
    {items : List ι} {items' : List κ} (pairs : List.Forall₂ related items items')
    {best : Option ι} {best' : Option κ} (start : Option.Rel related best best') :
    Option.Rel related (items.foldl prefer best) (items'.foldl prefer' best') := by
  induction pairs generalizing best best' with
  | nil => exact start
  | cons first _ inductionHypothesis => exact inductionHypothesis (same start first)

/-- What is found first is found first under new names. -/
theorem find?_map_name {ι κ : Type} {turn : ι → κ} {test : ι → Bool} {test' : κ → Bool}
    {items : List ι} (same : ∀ x ∈ items, test' (turn x) = test x) :
    (items.map turn).find? test' = (items.find? test).map turn := by
  rw [List.find?_map]
  congr 1
  induction items with
  | nil => rfl
  | cons x rest inductionHypothesis =>
      rw [List.find?_cons, List.find?_cons, Function.comp_apply, same x List.mem_cons_self,
        inductionHypothesis fun y member => same y (List.mem_cons_of_mem x member)]

namespace RegionGraph

/-! ## Loop bodies -/

section Gathering

variable {graph : RegionGraph} {head : Nat}

/-- What a loop body holds: the header, the latches, and all that leads to a
member but the header. -/
structure Gathers (graph : RegionGraph) (head : Nat) (inner result : List Nat) : Prop where
  nodup : result.Nodup
  starts : ∀ v ∈ head :: inner, v ∈ result
  closed : ∀ v ∈ result, v ≠ head → ∀ p ∈ graph.entrants v, p ≠ root → p ∈ result
  least : ∀ inside : Nat → Prop, (∀ v ∈ head :: inner, inside v) →
    (∀ v, inside v → v ≠ head → ∀ p ∈ graph.entrants v, p ≠ root → inside p) →
    ∀ v ∈ result, inside v

/-- A body under construction, with the vertices whose predecessors are still to
be added. -/
structure Gathering (graph : RegionGraph) (head : Nat) (inner body pending : List Nat) :
    Prop where
  nodup : body.Nodup
  within : ∀ v ∈ body, v < graph.size
  starts : ∀ v ∈ head :: inner, v ∈ body
  pending_sub : ∀ v ∈ pending, v ∈ body ∧ v ≠ head
  closed : ∀ v ∈ body, v ∉ pending → v ≠ head → ∀ p ∈ graph.entrants v, p ≠ root → p ∈ body
  least : ∀ inside : Nat → Prop, (∀ v ∈ head :: inner, inside v) →
    (∀ v, inside v → v ≠ head → ∀ p ∈ graph.entrants v, p ≠ root → inside p) →
    ∀ v ∈ body, inside v

theorem Gathering.next (consistent : graph.Consistent) {inner body pending : List Nat} {v : Nat}
    (gathering : Gathering graph head inner body (v :: pending)) :
    let fresh := (graph.entrants v).filter fun p => p != root && !body.contains p
    Gathering graph head inner (body ++ fresh) (fresh ++ pending) := by
  intro fresh
  obtain ⟨isMember, notHead⟩ := gathering.pending_sub v List.mem_cons_self
  have mem_fresh {p : Nat} : p ∈ fresh ↔ p ∈ graph.entrants v ∧ p ≠ root ∧ p ∉ body := by
    simp [fresh]
  have isNew {p : Nat} (member : p ∈ fresh) : p ≠ head := by
    rintro rfl
    exact (mem_fresh.mp member).2.2 (gathering.starts p List.mem_cons_self)
  refine
    { nodup := ?_
      within := ?_
      starts := fun w isStart => List.mem_append_left _ (gathering.starts w isStart)
      pending_sub := ?_
      closed := ?_
      least := ?_ }
  · refine gathering.nodup.append ((nodup_entrants graph v).filter _) fun p old new => ?_
    exact (mem_fresh.mp new).2.2 old
  · intro p member
    rcases List.mem_append.mp member with old | new
    · exact gathering.within p old
    · exact Digraph.lt_size_of_mem_neighbours ((mem_entrants consistent).mp (mem_fresh.mp new).1)
  · intro p member
    rcases List.mem_append.mp member with new | old
    · exact ⟨List.mem_append_right _ new, isNew new⟩
    · obtain ⟨inBody, other⟩ := gathering.pending_sub p (List.mem_cons_of_mem v old)
      exact ⟨List.mem_append_left _ inBody, other⟩
  · intro w member settled other p entering notRoot
    have old : w ∈ body := by
      rcases List.mem_append.mp member with old | new
      · exact old
      · exact absurd (List.mem_append_left _ new) settled
    by_cases isNext : w = v
    · subst isNext
      by_cases known : p ∈ body
      · exact List.mem_append_left _ known
      · exact List.mem_append_right _ (mem_fresh.mpr ⟨entering, notRoot, known⟩)
    · refine List.mem_append_left _ (gathering.closed w old ?_ other p entering notRoot)
      intro waiting
      rcases List.mem_cons.mp waiting with same | later
      · exact isNext same
      · exact settled (List.mem_append_right _ later)
  · intro inside starts closed p member
    have known := gathering.least inside starts closed
    rcases List.mem_append.mp member with old | new
    · exact known p old
    · obtain ⟨entering, notRoot, _⟩ := mem_fresh.mp new
      exact closed v (known v isMember) notHead p entering notRoot

/-- The fuel that is left covers what is pending and what may still come. -/
theorem Gathering.gathers (consistent : graph.Consistent) {inner : List Nat} (fuel : Nat)
    {body pending : List Nat} (gathering : Gathering graph head inner body pending)
    (enough : graph.size + pending.length ≤ body.length + fuel) :
    Gathers graph head inner (graph.gatherBody fuel body pending) := by
  have done {body : List Nat} (gathering : Gathering graph head inner body []) :
      Gathers graph head inner body :=
    ⟨gathering.nodup, gathering.starts,
      fun v member => gathering.closed v member List.not_mem_nil, gathering.least⟩
  induction fuel generalizing body pending with
  | zero =>
      have bound := length_le_of_lt gathering.nodup gathering.within
      obtain rfl : pending = [] := List.length_eq_zero_iff.mp (by omega)
      rw [gatherBody]
      exact done gathering
  | succ fuel inductionHypothesis =>
      cases pending with
      | nil =>
          rw [gatherBody]
          · exact done gathering
          · omega
      | cons v pending =>
          rw [gatherBody]
          apply inductionHypothesis (gathering.next consistent)
          simp only [List.length_append, List.length_cons] at enough ⊢
          omega

/-- The body of a natural loop. -/
theorem gathers_body (consistent : graph.Consistent) {inner : List Nat} (nodup : inner.Nodup)
    (headWithin : head < graph.size) (within : ∀ v ∈ inner, v < graph.size ∧ v ≠ head) :
    Gathers graph head inner (graph.gatherBody graph.size (head :: inner) inner) := by
  refine Gathering.gathers consistent graph.size
    { nodup := List.nodup_cons.mpr ⟨fun member => (within head member).2 rfl, nodup⟩
      within := ?_
      starts := fun v member => member
      pending_sub := fun v member => ⟨List.mem_cons_of_mem _ member, (within v member).2⟩
      closed := ?_
      least := fun inside starts _ => starts } (by simp only [List.length_cons]; omega)
  · intro v member
    rcases List.mem_cons.mp member with rfl | isInner
    · exact headWithin
    · exact (within v isInner).1
  · intro v member settled notHead
    rcases List.mem_cons.mp member with same | isInner
    · exact absurd same notHead
    · exact absurd isInner settled

end Gathering

namespace Twins

variable {name : Nat → Nat} {kept : Nat → Prop} {graph other : RegionGraph}
  (twins : Twins name kept graph other)
include twins

/-- Loop bodies hold the same vertices. -/
theorem body_perm {head : Nat} {inner inner' result result' : List Nat}
    (sameInner : inner'.Perm (inner.map name)) (gathers : Gathers graph head inner result)
    (gathers' : Gathers other (name head) inner' result') :
    result'.Perm (result.map name) := by
  have sameStart {v : Nat} : name v ∈ name head :: inner' ↔ v ∈ head :: inner := by
    rw [List.mem_cons, List.mem_cons, sameInner.mem_iff, List.mem_map_of_injective twins.injective,
      twins.injective.eq_iff]
  have isName {w : Nat} (member : w ∈ name head :: inner') : ∃ v ∈ head :: inner, name v = w := by
    rcases List.mem_cons.mp member with rfl | isInner
    · exact ⟨head, List.mem_cons_self, rfl⟩
    · obtain ⟨v, isOld, same⟩ := List.mem_map.mp (sameInner.mem_iff.mp isInner)
      exact ⟨v, List.mem_cons_of_mem _ isOld, same⟩
  have entrant_iff {v w : Nat} :
      w ∈ other.entrants (name v) ↔ ∃ p ∈ graph.entrants v, name p = w := by
    rw [(twins.entrants_perm v).mem_iff, List.mem_map]
  rw [List.perm_ext_iff_of_nodup gathers'.nodup (gathers.nodup.map twins.injective)]
  intro w
  rw [List.mem_map]
  constructor
  · apply gathers'.least fun w => ∃ v ∈ result, name v = w
    · intro w member
      obtain ⟨v, isStart, same⟩ := isName member
      exact ⟨v, gathers.starts v isStart, same⟩
    · rintro _ ⟨v, member, rfl⟩ notHead q entering notRoot
      obtain ⟨p, isEntrant, rfl⟩ := entrant_iff.mp entering
      refine ⟨p, gathers.closed v member (fun same => notHead (congrArg name same)) p isEntrant ?_,
        rfl⟩
      exact fun isRoot => notRoot (twins.renamed.name_eq_root.mpr isRoot)
  · rintro ⟨v, member, rfl⟩
    apply gathers.least (fun v => name v ∈ result') _ _ v member
    · exact fun v isStart => gathers'.starts _ (sameStart.mpr isStart)
    · intro v inside notHead p entering notRoot
      exact gathers'.closed _ inside (fun same => notHead (twins.injective same)) _
        (entrant_iff.mpr ⟨p, entering, rfl⟩)
        fun isRoot => notRoot (twins.renamed.name_eq_root.mp isRoot)

end Twins

/-! ## Natural loops -/

structure SameLoop (name : Nat → Nat) (loop loop' : NaturalLoop) : Prop where
  head : loop'.head = name loop.head
  latches : loop'.latches = loop.latches.map name
  body : loop'.body.Perm (loop.body.map name)

namespace Twins

variable {name : Nat → Nat} {kept : Nat → Prop} {graph other : RegionGraph}
  (twins : Twins name kept graph other) (all : graph.AllReached) {v : Nat}
include twins

theorem sidewaysEdge?_name :
    other.sidewaysEdge? (Analysis.ofGraph other) =
      (graph.sidewaysEdge? (Analysis.ofGraph graph)).map (Prod.map name name) := by
  have sideways (source target : Nat) :
      entersSideways (Analysis.ofGraph other) (name source) (name target) =
        entersSideways (Analysis.ofGraph graph) source target := by
    rw [entersSideways, entersSideways, twins.renamed.descends_name, twins.renamed.dominated_name]
  have edges : (Analysis.ofGraph other).postorder.flatMap (fun source =>
        ((other.exits source).filter (entersSideways (Analysis.ofGraph other) source)).map
          (source, ·)) =
      ((Analysis.ofGraph graph).postorder.flatMap fun source =>
        ((graph.exits source).filter (entersSideways (Analysis.ofGraph graph) source)).map
          (source, ·)).map (Prod.map name name) := by
    rw [twins.renamed.tried_name, List.flatMap_map, List.map_flatMap]
    refine List.flatMap_congr fun source _ => ?_
    rw [twins.exits_name, List.filter_map, List.map_map, List.map_map]
    simp only [Function.comp_def, sideways, Prod.map]
  have prefers (best : Option (Nat × Nat)) (edge : Nat × Nat) :
      preferEdge (Analysis.ofGraph other) (best.map (Prod.map name name))
          (Prod.map name name edge) =
        (preferEdge (Analysis.ofGraph graph) best edge).map (Prod.map name name) := by
    cases best with
    | none => rfl
    | some found =>
        obtain ⟨source, target⟩ := found
        obtain ⟨source', target'⟩ := edge
        simp only [preferEdge, Option.map_some, Prod.map, twins.renamed.order_lt_name,
          twins.injective.eq_iff]
        split <;> rfl
  unfold sidewaysEdge?
  dsimp only
  rw [edges]
  exact foldl_map_name prefers _ none

theorem outsiders_perm (v : Nat) :
    (other.outsiders (Analysis.ofGraph other) (name v)).Perm
      ((graph.outsiders (Analysis.ofGraph graph) v).map name) :=
  twins.entrants_filter_perm (fun p => by rw [twins.renamed.descends_name]) v

include all in
theorem naturalLoop?_name (live : graph.isLive v = true) :
    Option.Rel (SameLoop name) (graph.naturalLoop? (Analysis.ofGraph graph) v)
      (other.naturalLoop? (Analysis.ofGraph other) (name v)) := by
  have latches : ((other.entrants (name v)).filter fun p =>
        p != root && (Analysis.ofGraph other).dominates (name v) p).Perm
      (((graph.entrants v).filter fun p =>
        p != root && (Analysis.ofGraph graph).dominates v p).map name) :=
    twins.entrants_filter_perm (fun p => by rw [twins.bne_root, twins.renamed.dominated_name]) v
  have isLatch {p : Nat} (member : p ∈ (graph.entrants v).filter fun p =>
      p != root && (Analysis.ofGraph graph).dominates v p) : v ∈ graph.successors p :=
    (mem_entrants twins.wellFormed.consistent).mp (List.mem_filter.mp member).1
  have isLatch' {p : Nat} (member : p ∈ (other.entrants (name v)).filter fun p =>
      p != root && (Analysis.ofGraph other).dominates (name v) p) :
      name v ∈ other.successors p :=
    (mem_entrants twins.wellFormed'.consistent).mp (List.mem_filter.mp member).1
  have distinct := (nodup_entrants graph v).filter fun p =>
    p != root && (Analysis.ofGraph graph).dominates v p
  have distinct' := (nodup_entrants other (name v)).filter fun p =>
    p != root && (Analysis.ofGraph other).dominates (name v) p
  unfold naturalLoop?
  dsimp only
  generalize (graph.entrants v).filter _ = found at latches isLatch distinct ⊢
  generalize (other.entrants (name v)).filter _ = found' at latches isLatch' distinct' ⊢
  rw [latches.isEmpty_eq, List.isEmpty_map]
  split
  · exact .none
  · refine .some ⟨rfl, ?_, ?_⟩
    · refine twins.renamed.ascending_name (fun p member => ?_) latches
      exact State.reaches_of_edge twins.wellFormed all (isLatch member)
    · have inner : (found'.filter (· != name v)).Perm ((found.filter (· != v)).map name) := by
        rw [← filter_ne_map_name twins.injective]
        exact latches.filter _
      refine twins.body_perm inner
        (gathers_body twins.wellFormed.consistent (distinct.filter _)
          (Digraph.lt_size_of_isLive live) fun p member => ?_)
        (gathers_body twins.wellFormed'.consistent (distinct'.filter _)
          (Digraph.lt_size_of_isLive (by rwa [twins.isLive_name])) fun p member => ?_)
      · obtain ⟨isFound, different⟩ := List.mem_filter.mp member
        exact ⟨Digraph.lt_size_of_mem_neighbours (isLatch isFound), by simpa using different⟩
      · obtain ⟨isFound, different⟩ := List.mem_filter.mp member
        exact ⟨Digraph.lt_size_of_mem_neighbours (isLatch' isFound), by simpa using different⟩

include all in
theorem smallestLoop?_name :
    Option.Rel (SameLoop name) (graph.smallestLoop? (Analysis.ofGraph graph))
      (other.smallestLoop? (Analysis.ofGraph other)) := by
  have loops (regions : List Nat) (live : ∀ v ∈ regions, graph.isLive v = true) :
      List.Forall₂ (SameLoop name)
        (regions.filterMap (graph.naturalLoop? (Analysis.ofGraph graph)))
        ((regions.map name).filterMap (other.naturalLoop? (Analysis.ofGraph other))) := by
    induction regions with
    | nil => exact .nil
    | cons v rest inductionHypothesis =>
        have later := inductionHypothesis fun w member => live w (List.mem_cons_of_mem v member)
        have first := twins.naturalLoop?_name all (live v List.mem_cons_self)
        rw [List.map_cons, List.filterMap_cons, List.filterMap_cons]
        generalize graph.naturalLoop? (Analysis.ofGraph graph) v = loop at first ⊢
        generalize other.naturalLoop? (Analysis.ofGraph other) (name v) = loop' at first ⊢
        cases first with
        | none => exact later
        | some same => exact .cons same later
  unfold smallestLoop?
  rw [twins.renamed.tried_name]
  refine foldl_rel ?_ (loops _ fun v tried =>
    (twins.wellFormed.isLive_of_mem_postorder tried).1) .none
  intro best best' loop loop' sameBest same
  cases sameBest with
  | none => exact .some same
  | @some smallest smallest' sameBest =>
      have sizes : loop'.body.length < smallest'.body.length ↔
          loop.body.length < smallest.body.length := by
        rw [same.body.length_eq, sameBest.body.length_eq, List.length_map, List.length_map]
      dsimp only
      simp only [sizes]
      split
      · exact .some same
      · exact .some sameBest

/-! ## Cuts -/

section Loop

variable {loop loop' : NaturalLoop} (same : SameLoop name loop loop')
include same

theorem contains_body (v : Nat) : loop'.body.contains (name v) = loop.body.contains v := by
  rw [← contains_map_name twins.injective loop.body, Bool.eq_iff_iff, List.contains_iff_mem,
    List.contains_iff_mem, same.body.mem_iff]

theorem loopExits_name (reached : ∀ v ∈ loop.body, graph.Reaches .forward root v) :
    other.loopExits (Analysis.ofGraph other) loop' =
      (graph.loopExits (Analysis.ofGraph graph) loop).map (Prod.map name name) := by
  unfold loopExits
  rw [twins.renamed.ascending_name reached same.body, List.flatMap_map, List.map_flatMap]
  refine List.flatMap_congr fun source _ => ?_
  rw [twins.exits_name, List.filter_map, List.map_map, List.map_map]
  simp only [Function.comp_def, twins.contains_body same, twins.isJump_name, Prod.map]

theorem keptSource_name (sources : List Nat) :
    keptSource loop' (sources.map name) = (keptSource loop sources).map name := by
  unfold keptSource
  rw [same.head, same.latches, contains_map_name twins.injective, List.head?_map, List.filter_map]
  have known : (sources.map name).contains ∘ name = sources.contains := by
    funext v
    exact contains_map_name twins.injective sources v
  rw [known, List.getLast?_map]
  split
  · rfl
  · cases (loop.latches.filter sources.contains).getLast? <;> rfl

omit same in
theorem staysReachable_name (source target : Nat) :
    other.staysReachable (Analysis.ofGraph other) (name source) (name target) =
      graph.staysReachable (Analysis.ofGraph graph) source target := by
  unfold staysReachable
  rw [(twins.entrants_perm target).any_eq, List.any_map]
  simp only [Function.comp_def, bne_name twins.injective, twins.renamed.dominated_name]

theorem extraExit?_name (reached : ∀ v ∈ loop.body, graph.Reaches .forward root v) :
    other.extraExit? (Analysis.ofGraph other) loop' =
      (graph.extraExit? (Analysis.ofGraph graph) loop).map (Prod.map name name) := by
  unfold extraExit?
  dsimp only
  rw [twins.loopExits_name same reached]
  generalize graph.loopExits (Analysis.ofGraph graph) loop = exits
  have sources : ((exits.map (Prod.map name name)).map Prod.fst).eraseDups =
      (exits.map Prod.fst).eraseDups.map name := by
    rw [← eraseDups_map_name twins.injective, List.map_map, List.map_map]
    rfl
  rw [sources, List.length_map, twins.keptSource_name same]
  split
  · rfl
  refine find?_map_name fun edge _ => ?_
  obtain ⟨source, target⟩ := edge
  have keeps : (Option.map name (keptSource loop (exits.map Prod.fst).eraseDups) !=
      some (name source)) = (keptSource loop (exits.map Prod.fst).eraseDups != some source) := by
    rw [bne, bne, beq_eq_decide, beq_eq_decide]
    simp only [map_name_eq_some twins.injective]
  dsimp only [Prod.map]
  rw [keeps, twins.staysReachable_name]

end Loop

include all in
theorem joinEdge?_name {within within' : Nat → Bool} (same : ∀ v, within' (name v) = within v) :
    other.joinEdge? (Analysis.ofGraph other) within' =
      (graph.joinEdge? (Analysis.ofGraph graph) within).map (Prod.map name name) := by
  unfold joinEdge?
  rw [twins.renamed.tried_name]
  refine findSome?_map name _ fun v tried => ?_
  have live := (twins.wellFormed.isLive_of_mem_postorder tried).1
  have ahead : ((other.entrants (name v)).filter fun p =>
        !(Analysis.ofGraph other).dominates (name v) p).Perm
      (((graph.entrants v).filter fun p =>
        !(Analysis.ofGraph graph).dominates v p).map name) :=
    twins.entrants_filter_perm (fun p => by rw [twins.renamed.dominated_name]) v
  have reachedAhead : ∀ p ∈ (graph.entrants v).filter fun p =>
      !(Analysis.ofGraph graph).dominates v p, graph.Reaches .forward root p := fun p member =>
    State.reaches_of_edge twins.wellFormed all
      ((mem_entrants twins.wellFormed.consistent).mp (List.mem_filter.mp member).1)
  have immediate (p : Nat) :
      ((Analysis.ofGraph other).dominators.idom? (name v) != some (name p)) =
        ((Analysis.ofGraph graph).dominators.idom? v != some p) := by
    rw [twins.renamed.idom?_name (all v live) (twins.wellFormed.ne_root_of_isLive live), bne, bne,
      beq_eq_decide, beq_eq_decide]
    simp only [map_name_eq_some twins.injective]
  have chosen (sources : List Nat) : (sources.map name).find? (fun p =>
        (Analysis.ofGraph other).dominators.idom? (name v) != some p) =
      (sources.find? fun p => (Analysis.ofGraph graph).dominators.idom? v != some p).map name :=
    find?_map_name fun p _ => immediate p
  dsimp only
  rw [same, twins.isJump_name, ahead.length_eq, List.length_map,
    twins.renamed.descending_name reachedAhead ahead, chosen]
  split
  · rfl
  split
  · rfl
  · generalize List.find? _ _ = source
    cases source <;> rfl

include all in
/-- A loop is cut at the same edge. -/
theorem loopCut?_name {loop loop' : NaturalLoop} (same : SameLoop name loop loop')
    (reached : ∀ v ∈ loop.body, graph.Reaches .forward root v) :
    other.loopCut? (Analysis.ofGraph other) loop' =
      (graph.loopCut? (Analysis.ofGraph graph) loop).map (Cut.relabel name) := by
  have inside (v : Nat) : (name v != loop'.head && loop'.body.contains (name v)) =
      (v != loop.head && loop.body.contains v) := by
    rw [same.head, bne_name twins.injective, twins.contains_body same]
  unfold loopCut?
  rw [twins.extraExit?_name same reached, same.latches, twins.joinEdge?_name all inside, same.head]
  cases graph.extraExit? (Analysis.ofGraph graph) loop with
  | some edge => rfl
  | none =>
      dsimp only [Option.map_none]
      match loop.latches with
      | [] => rfl
      | latch :: _ :: _ => rfl
      | [latch] =>
          rw [List.map_singleton]
          dsimp only
          generalize graph.joinEdge? _ _ = join
          cases join <;> rfl

end Twins

end RegionGraph

end FlowRegions
