import FlowRegions.Proofs.Interval.Derivation
import Mathlib.Data.Setoid.Basic

/-!
Contract: how many vertices the limit of a graph has, said of the graph alone.

Deriving a graph moves vertices into the class of the one place they are entered from.
Which vertices come together in the end does not depend on the intervals that are
collapsed on the way: it is the least equivalence in which a vertex that is entered
from one class besides its own belongs to that class.  Edges within a class and edges
from vertices that are not reached have no part in it.

Owns:
- `Digraph.merging`, the least such equivalence, and `Digraph.mergedCount`;
- `Digraph.mergedCount_quotient`, that a derived graph has as many classes;
- `Digraph.limitVertexCount_eq`, the number of vertices of the limit.
-/

namespace FlowRegions.Digraph

variable {α : Type} {graph : Digraph α}

/-! ## Classes of vertices -/

/-- An equivalence in which a vertex that is entered from one class besides its own
belongs to that class. -/
def Merges (graph : Digraph α) (classes : Setoid Nat) : Prop :=
  ∀ v p, v ≠ root → graph.Reaches .forward root p → v ∈ graph.successors p →
    (∀ q, graph.Reaches .forward root q → v ∈ graph.successors q → classes q v ∨ classes q p) →
    classes v p

def merging (graph : Digraph α) : Setoid Nat :=
  sInf {classes | graph.Merges classes}

noncomputable def mergedCount (graph : Digraph α) : Nat :=
  (Quotient.mk graph.merging '' {v | graph.Reaches .forward root v}).ncard

theorem merges_merging (graph : Digraph α) : graph.Merges graph.merging := by
  intro v p notRoot reaches edge entered classes merges
  refine merges v p notRoot reaches edge fun q reachesQ edgeQ => ?_
  exact (entered q reachesQ edgeQ).imp (· classes merges) (· classes merges)

theorem Merges.of_merging {classes : Setoid Nat} (merges : graph.Merges classes) {u v : Nat}
    (merged : graph.merging u v) : classes u v :=
  merged classes merges

/-- An interval lies within a class. -/
theorem Absorbed.merging (consistent : graph.Consistent) {head v : Nat}
    (reaches : graph.Reaches .forward root head) (member : graph.Absorbed head v) :
    graph.merging v head := by
  induction member with
  | head => exact graph.merging.refl' head
  | @absorb v p notRoot _ entered inside inductionHypothesis =>
      have reachesP := reaches.trans (reaches_of_closure ((inside p entered).closure consistent))
      have toHead := inductionHypothesis p entered
      refine graph.merging.trans' (graph.merges_merging v p notRoot reachesP
        (consistent.mem_predecessors.mp entered) fun q _ edge => .inr ?_) toHead
      exact graph.merging.trans' (inductionHypothesis q (consistent.mem_predecessors.mpr edge))
        (graph.merging.symm' toHead)

/-! ## Classes of a derived graph -/

/-- Where the vertices of an interval go. -/
theorem exists_place (graph : Digraph α) (heads : List Nat) : ∃ place : Nat → Nat,
    ∀ {head v : Nat}, graph.Header head → graph.Absorbed head v →
      place v = standIn heads head := by
  have choice (v : Nat) : ∃ x, ∀ head, graph.Header head → graph.Absorbed head v →
      x = standIn heads head := by
    by_cases owned : ∃ head, graph.Header head ∧ graph.Absorbed head v
    · obtain ⟨head, header, member⟩ := owned
      exact ⟨standIn heads head, fun other header' member' =>
        congrArg (standIn heads) (header.unique header' member member')⟩
    · exact ⟨root, fun head header member => absurd ⟨head, header, member⟩ owned⟩
  choose place isPlace using choice
  exact ⟨place, fun header member => isPlace _ _ header member⟩

section Derived

variable {heads : List Nat} (headers : HeadersOf graph heads) (consistent : graph.Consistent)
  (attached : ∀ {u v}, v ∈ graph.successors u → graph.isDetached v = false)
include headers consistent attached

/-- The classes of the graph give classes of the derived graph. -/
theorem merges_comap_header {header : Nat → Nat}
    (isHeader : ∀ h ∈ heads, header (standIn heads h) = h) :
    (graph.quotient (heads.map (Interval.ofHead graph))).Merges (graph.merging.comap header) := by
  intro x y notRoot _ edge entered
  obtain ⟨h, isHead, k, isHead', rfl, rfl, p, enters, _, inside⟩ :=
    (mem_successors_quotient headers consistent).mp edge
  have reachesH := ((headers.mem_iff h).mp isHead).reaches consistent
  have reachesP := reachesH.trans (reaches_of_closure (inside.closure consistent))
  have toHead := inside.merging consistent reachesH
  rw [Setoid.comap_rel, isHeader h isHead, isHeader k isHead']
  refine graph.merging.trans' (graph.merges_merging k p (fun atRoot => notRoot ?_) reachesP
    (consistent.mem_predecessors.mp enters) fun q reachesQ edgeQ => ?_) toHead
  · rw [atRoot, standIn_root headers]
  · obtain ⟨l, headerL, insideL⟩ := exists_header consistent attached reachesQ
    have isHeadL := (headers.mem_iff l).mpr headerL
    have toL := insideL.merging consistent (headerL.reaches consistent)
    by_cases own : l = k
    · exact .inl (own ▸ toL)
    · have goes := entered (standIn heads l) (reaches_standIn headers consistent headerL)
        ((standIn_mem_successors_iff consistent headers isHeadL isHead' own).mpr
          ⟨q, insideL, k, .head, edgeQ⟩)
      simp only [Setoid.comap_rel] at goes
      rw [isHeader l isHeadL, isHeader h isHead, isHeader k isHead'] at goes
      refine goes.imp (graph.merging.trans' toL) fun toH => ?_
      exact graph.merging.trans' (graph.merging.trans' toL toH) (graph.merging.symm' toHead)

variable {place : Nat → Nat}
  (isPlace : ∀ {head v : Nat}, graph.Header head → graph.Absorbed head v →
    place v = standIn heads head)
include isPlace

/-- The classes of the derived graph give classes of the graph. -/
theorem merges_comap_place : graph.Merges
    ((graph.quotient (heads.map (Interval.ofHead graph))).merging.comap place) := by
  intro v p notRoot reaches edge entered
  rw [Setoid.comap_rel]
  obtain ⟨h, header, inside⟩ := exists_header consistent attached reaches
  have isHead := (headers.mem_iff h).mpr header
  rcases absorbed_or_header consistent attached header inside edge with within | isHeader
  · rw [isPlace header within, isPlace header inside]
  · rw [isPlace isHeader .head, isPlace header inside]
    have isHead' := (headers.mem_iff v).mpr isHeader
    by_cases same : h = v
    · rw [same]
    · -- An edge between two vertices of the derived graph.
      refine merges_merging _ _ _ (fun atRoot => notRoot ?_)
        (reaches_standIn headers consistent header)
        ((standIn_mem_successors_iff consistent headers isHead isHead' same).mpr
          ⟨p, inside, v, .head, edge⟩) fun x _ edgeX => ?_
      · rw [← standIn_root headers] at atRoot
        exact (standIn_inj isHead').mp atRoot
      · obtain ⟨k, isHeadK, w, _, rfl, sameTarget, q, enters, _, insideK⟩ :=
          (mem_successors_quotient headers consistent).mp edgeX
        obtain rfl := (standIn_inj isHead').mp sameTarget
        have headerK := (headers.mem_iff k).mp isHeadK
        have reachesQ := (headerK.reaches consistent).trans
          (reaches_of_closure (insideK.closure consistent))
        have goes := entered q reachesQ (consistent.mem_predecessors.mp enters)
        simp only [Setoid.comap_rel] at goes
        rwa [isPlace headerK insideK, isPlace isHeader .head, isPlace header inside] at goes

theorem merging_place_iff {u v : Nat} (reachesU : graph.Reaches .forward root u)
    (reachesV : graph.Reaches .forward root v) :
    (graph.quotient (heads.map (Interval.ofHead graph))).merging (place u) (place v) ↔
      graph.merging u v := by
  constructor
  · intro merged
    have injective : Set.InjOn (standIn heads) {h | h ∈ heads} :=
      fun h isHead k _ same => (standIn_inj isHead).mp same
    have merges := merges_comap_header headers consistent attached
      fun h isHead => injective.leftInvOn_invFunOn isHead
    obtain ⟨h, header, inside⟩ := exists_header consistent attached reachesU
    obtain ⟨k, header', inside'⟩ := exists_header consistent attached reachesV
    rw [isPlace header inside, isPlace header' inside'] at merged
    have heads_merged := merges.of_merging merged
    rw [Setoid.comap_rel, injective.leftInvOn_invFunOn ((headers.mem_iff h).mpr header),
      injective.leftInvOn_invFunOn ((headers.mem_iff k).mpr header')] at heads_merged
    exact graph.merging.trans' (inside.merging consistent (header.reaches consistent))
      (graph.merging.trans' heads_merged
        (graph.merging.symm' (inside'.merging consistent (header'.reaches consistent))))
  · exact (merges_comap_place headers consistent attached isPlace).of_merging

theorem image_place_reached : place '' {v | graph.Reaches .forward root v} =
    {x | (graph.quotient (heads.map (Interval.ofHead graph))).Reaches .forward root x} := by
  ext x
  constructor
  · rintro ⟨v, reaches, rfl⟩
    obtain ⟨h, header, inside⟩ := exists_header consistent attached reaches
    rw [isPlace header inside]
    exact reaches_standIn headers consistent header
  · intro reaches
    obtain ⟨h, isHead, rfl⟩ : ∃ h ∈ heads, x = standIn heads h := by
      cases reaches_iff.mp reaches with
      | refl => exact ⟨root, (headers.mem_iff root).mpr .root, (standIn_root headers).symm⟩
      | tail _ edge =>
          obtain ⟨_, _, k, isHead, _, same, _⟩ :=
            (mem_successors_quotient headers consistent).mp edge
          exact ⟨k, isHead, same⟩
    have header := (headers.mem_iff h).mp isHead
    exact ⟨h, header.reaches consistent, isPlace header .head⟩

end Derived

section Attached

variable (consistent : graph.Consistent)
  (attached : ∀ {u v}, v ∈ graph.successors u → graph.isDetached v = false)
include consistent attached

/-- A derived graph has as many classes as the graph. -/
theorem mergedCount_quotient :
    (graph.quotient graph.intervals).mergedCount = graph.mergedCount := by
  obtain ⟨heads, headers, same⟩ := exists_headersOf consistent
  rw [same]
  obtain ⟨place, isPlace⟩ := graph.exists_place heads
  have kept : graph.merging ≤
      (graph.quotient (heads.map (Interval.ofHead graph))).merging.comap place :=
    fun u v => (merges_comap_place headers consistent attached isPlace).of_merging
  -- What becomes of a class.
  let classPlace : Quotient graph.merging →
      Quotient (graph.quotient (heads.map (Interval.ofHead graph))).merging :=
    Quotient.map place fun u v => @kept u v
  have moved : Quotient.mk (graph.quotient (heads.map (Interval.ofHead graph))).merging ''
      {x | (graph.quotient (heads.map (Interval.ofHead graph))).Reaches .forward root x} =
      classPlace '' (Quotient.mk graph.merging '' {v | graph.Reaches .forward root v}) := by
    rw [← image_place_reached headers consistent attached isPlace, Set.image_image, Set.image_image]
    rfl
  have injective : Set.InjOn classPlace
      (Quotient.mk graph.merging '' {v | graph.Reaches .forward root v}) := by
    rintro _ ⟨u, reachesU, rfl⟩ _ ⟨v, reachesV, rfl⟩ equal
    refine Quotient.sound ((merging_place_iff headers consistent attached isPlace reachesU
      reachesV).mp ?_)
    exact Quotient.exact equal
  rw [mergedCount, moved, injective.ncard_image, mergedCount]

/-- A graph that is no limit has fewer classes than vertices that are reached. -/
theorem mergedCount_lt (more : isLimit graph.intervals = false) :
    graph.mergedCount < graph.reachedCount := by
  refine (Set.ncard_image_le (finite_reached consistent)).lt_of_ne fun same => ?_
  have distinct := Set.injOn_of_ncard_image_eq same (finite_reached consistent)
  have limit := (isLimit_intervals_iff_header consistent attached).mpr fun v reaches => by
    obtain ⟨head, header, member⟩ := exists_header consistent attached reaches
    have reachesHead := header.reaches consistent
    have merged := member.merging consistent reachesHead
    exact distinct reaches reachesHead (Quotient.sound merged) ▸ header
  rw [limit] at more
  cases more

end Attached

/-! ## The limit -/

/-- In a limit without self-edges every vertex that is reached is a class of its own. -/
theorem Flowing.mergedCount_of_limit (flowing : graph.Flowing)
    (limit : isLimit graph.intervals = true) : graph.mergedCount = graph.reachedCount := by
  have consistent := flowing.consistent
  have isHeader := (isLimit_intervals_iff_header consistent flowing.attached).mp limit
  have merges : graph.Merges ⊥ := by
    intro v p notRoot reaches edge entered
    -- The one place that the vertex is entered from would absorb it.
    have sole {q : Nat} (enters : q ∈ graph.predecessors v) : q = p := by
      have edgeQ := consistent.mem_predecessors.mp enters
      refine (entered q (flowing.reaches edgeQ) edgeQ).resolve_left fun same => ?_
      exact flowing.simple v (by rwa [show q = v from same] at edgeQ)
    have member : graph.Absorbed p v :=
      .absorb notRoot (flowing.attached edge) (consistent.mem_predecessors.mpr edge)
        fun q enters => sole enters ▸ .head
    exact (isHeader v (reaches.edge edge)).eq_of_absorbed member
  have distinct : Function.Injective (Quotient.mk graph.merging) :=
    fun u v same => merges.of_merging (Quotient.exact same)
  exact Set.ncard_image_of_injective _ distinct

/-- The loop ends with one vertex for each class. -/
theorem Derives.length_limit {later : List (Digraph Interval × List Interval)}
    (derives : Derives graph later) (flowing : graph.Flowing) :
    (DerivedSequence.limit ⟨graph.intervals, later⟩).length = graph.mergedCount := by
  induction derives with
  | stop limit =>
      rw [flowing.mergedCount_of_limit limit]
      exact (length_intervals_eq_iff flowing.consistent flowing.attached).mpr limit
  | collapse _ _ inductionHypothesis =>
      rw [limit_cons, inductionHypothesis (flowing_derived flowing.consistent)]
      exact mergedCount_quotient flowing.consistent flowing.attached

/-- The limit has a vertex for each class, unless no graph is derived at all.  Only the
first graph may have self-edges and vertices that are not reached, and then it may be a
limit although it has fewer classes than vertices. -/
theorem limitVertexCount_eq (consistent : graph.Consistent)
    (attached : ∀ {u v}, v ∈ graph.successors u → graph.isDetached v = false) :
    graph.limitVertexCount =
      if isLimit graph.intervals then graph.reachedCount else graph.mergedCount := by
  have derives := derives_derivedSequence consistent
  change (DerivedSequence.limit ⟨graph.intervals, graph.derivedSequence.derived⟩).length = _
  generalize graph.derivedSequence.derived = later at derives
  cases derives with
  | stop limit =>
      rw [if_pos limit]
      exact (length_intervals_eq_iff consistent attached).mpr limit
  | collapse more rest =>
      rw [if_neg (by simp [more]), limit_cons, rest.length_limit (flowing_derived consistent),
        mergedCount_quotient consistent attached]

end FlowRegions.Digraph
