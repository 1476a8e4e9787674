import FlowRegions.Proofs.Digraph.Contraction
import FlowRegions.Proofs.Interval.Quotient
import Mathlib.Order.WellFoundedSet

/-!
Contract: the limit of a graph is a single vertex exactly when every cycle has a
vertex that dominates it.

Intervals are entered at their headers only and every cycle within one passes its
header, so the derived graph is a contraction and has headed cycles exactly when
the graph has.  In a limit every interval is a single vertex.  If such a graph had
headed cycles and a second vertex, some vertex would be entered from one place
only and belong to its interval.

Owns:
- `Digraph.Absorbed.dominates` and `Digraph.Absorbed.mem_of_cycle`, what headers
  are to their intervals;
- `Digraph.Flowing`, with `Digraph.Flowing.exists_contracts`, and
  `Digraph.flowing_quotient`;
- `Digraph.Flowing.exists_sole_entrance`, what headed cycles without self-edges
  force;
- `Digraph.isReducible_iff_cycles_headed`.
-/

namespace FlowRegions.Digraph

variable {α : Type} {graph : Digraph α}

/-! ## Intervals and dominance -/

section Absorbed

variable {head v : Nat} (consistent : graph.Consistent)
include consistent

/-- A header dominates its interval. -/
theorem Absorbed.dominates (member : graph.Absorbed head v) :
    graph.Dominates .forward head v := by
  induction member with
  | head => exact .refl head
  | absorb notRoot _ _ _ inductionHypothesis =>
      by_contra passes
      obtain ⟨notStart, past⟩ := not_dominates_forward_iff.mp passes
      cases past with
      | refl => exact notRoot rfl
      | tail before edge =>
          exact not_dominates_forward_iff.mpr ⟨notStart, before⟩
            (inductionHypothesis _ (consistent.mem_predecessors.mpr edge.1))

/-- A cycle through an interval passes its header. -/
theorem Absorbed.mem_of_cycle {path : List Nat} (cycle : graph.Cycle path)
    (member : graph.Absorbed head v) (onPath : v ∈ path) : head ∈ path := by
  induction member with
  | head => exact onPath
  | absorb _ _ _ _ inductionHypothesis =>
      obtain ⟨turned, y, same, walk, back⟩ := cycle.rotate onPath
      exact inductionHypothesis y (consistent.mem_predecessors.mpr back)
        (same.mem_iff.mp walk.end_mem)

/-- A header leads to its interval without leaving it. -/
theorem Absorbed.closure (member : graph.Absorbed head v) : Relation.ReflTransGen
    (fun a b => graph.Edge .forward a b ∧ graph.Absorbed head b) head v := by
  induction member with
  | head => exact .refl
  | absorb notRoot attached entered inside inductionHypothesis =>
      exact (inductionHypothesis _ entered).tail
        ⟨consistent.mem_predecessors.mp entered, .absorb notRoot attached entered inside⟩

end Absorbed

/-- No two headers share a vertex of their intervals. -/
theorem Header.unique {head other v : Nat} (header : graph.Header head)
    (header' : graph.Header other) (member : graph.Absorbed head v)
    (member' : graph.Absorbed other v) : head = other := by
  rcases member.nested member' with inside | inside
  · exact header.eq_of_absorbed inside
  · exact (header'.eq_of_absorbed inside).symm

/-- A header is reached through the intervals that lead to it. -/
theorem Header.reaches (consistent : graph.Consistent) {head : Nat} (header : graph.Header head) :
    graph.Reaches .forward Digraph.root head := by
  induction header with
  | root => exact .refl Digraph.root
  | frontier _ _ _ entered inside inductionHypothesis =>
      have toMember := inductionHypothesis.trans (reaches_of_closure (inside.closure consistent))
      exact toMember.edge (consistent.mem_predecessors.mp entered)

section Attached

variable (consistent : graph.Consistent)
  (attached : ∀ {u v}, v ∈ graph.successors u → graph.isDetached v = false)
include consistent attached

/-- Where an edge leads from an interval: into it or to a header. -/
theorem absorbed_or_header {head u v : Nat} (header : graph.Header head)
    (member : graph.Absorbed head u) (edge : v ∈ graph.successors u) :
    graph.Absorbed head v ∨ graph.Header v := by
  by_cases inside : graph.Absorbed head v
  · exact .inl inside
  · exact .inr (.frontier header (attached edge) inside
      (consistent.mem_predecessors.mpr edge) member)

/-- Every vertex that is reached belongs to an interval. -/
theorem exists_header {v : Nat} (reaches : graph.Reaches .forward root v) :
    ∃ head, graph.Header head ∧ graph.Absorbed head v := by
  rw [reaches_iff] at reaches
  induction reaches with
  | refl => exact ⟨root, .root, .head⟩
  | @tail u v _ edge inductionHypothesis =>
      obtain ⟨head, header, member⟩ := inductionHypothesis
      rcases absorbed_or_header consistent attached header member edge with inside | isHeader
      · exact ⟨head, header, inside⟩
      · exact ⟨v, isHeader, .head⟩

end Attached

/-! ## Graphs that are reached and attached -/

/-- Every vertex that has an edge is reached from the root and attached, and no edge
leads back to its source. -/
structure Flowing (graph : Digraph α) : Prop where
  consistent : graph.Consistent
  simple : ∀ v, v ∉ graph.successors v
  reaches : ∀ {u v}, v ∈ graph.successors u → graph.Reaches .forward root u
  attached : ∀ {u v}, v ∈ graph.successors u → graph.isDetached v = false

namespace Flowing

variable (flowing : graph.Flowing)
include flowing

/-- The derived graph is a contraction. -/
theorem exists_contracts {heads : List Nat} (headers : HeadersOf graph heads) :
    ∃ owner, (∀ head, graph.Header head → owner head = head) ∧
      Contracts graph (graph.quotient (heads.map (Interval.ofHead graph))) owner
        (standIn heads) := by
  have consistent := flowing.consistent
  have choice (v : Nat) : ∃ head, graph.Reaches .forward root v →
      graph.Header head ∧ graph.Absorbed head v := by
    by_cases reaches : graph.Reaches .forward root v
    · exact (exists_header consistent flowing.attached reaches).imp fun _ found _ => found
    · exact ⟨root, fun reaches' => absurd reaches' reaches⟩
  choose owner owns using choice
  have isHeader {v : Nat} (reaches : graph.Reaches .forward root v) := (owns v reaches).1
  have absorbs {v : Nat} (reaches : graph.Reaches .forward root v) := (owns v reaches).2
  have owner_eq {head v : Nat} (reaches : graph.Reaches .forward root v)
      (header : graph.Header head) (member : graph.Absorbed head v) : owner v = head :=
    (isHeader reaches).unique header (absorbs reaches) member
  have ownsItself (head : Nat) (header : graph.Header head) : owner head = head :=
    owner_eq (header.reaches consistent) header .head
  have onward {u v : Nat} (reaches : graph.Reaches .forward root u)
      (edge : v ∈ graph.successors u) : graph.Absorbed (owner u) v ∨ graph.Header v :=
    absorbed_or_header consistent flowing.attached (isHeader reaches) (absorbs reaches) edge
  refine ⟨owner, ownsItself,
    { owner_root := ownsItself root .root
      place_root := standIn_root headers
      owner_owner := fun reaches => ownsItself _ (isHeader reaches)
      place_inj := fun reachesU _ same =>
        (standIn_inj ((headers.mem_iff _).mpr (isHeader reachesU))).mp same
      inner := ?_
      crosses := ?_
      lifts := ?_
      within := ?_ }⟩
  · intro u v reaches edge
    rcases onward reaches edge with inside | header
    · exact .inr (owner_eq (reaches.edge edge) (isHeader reaches) inside).symm
    · exact .inl (ownsItself v header).symm
  · intro u v reaches edge different
    have reachesV := reaches.edge edge
    have header : graph.Header v := (onward reaches edge).resolve_left
      fun inside => different (owner_eq reachesV (isHeader reaches) inside).symm
    have isOwner := ownsItself v header
    rw [isOwner] at different ⊢
    refine (mem_successors_quotient headers consistent).mpr
      ⟨owner u, (headers.mem_iff _).mpr (isHeader reaches), v, (headers.mem_iff v).mpr header, rfl,
        rfl, u, consistent.mem_predecessors.mpr edge, fun inside => ?_, absorbs reaches⟩
    exact different (owner_eq reaches header inside)
  · intro h y reaches isOwner edge _
    have header : graph.Header h := isOwner ▸ isHeader reaches
    obtain ⟨h', isHead, k, isHead', same, rfl, p, entered, _, inside⟩ :=
      (mem_successors_quotient headers consistent).mp edge
    obtain rfl := (standIn_inj isHead).mp same.symm
    refine ⟨k, p, rfl, ownsItself k ((headers.mem_iff k).mp isHead'),
      consistent.mem_predecessors.mp entered, ?_⟩
    refine Relation.ReflTransGen.mono (fun a b step => ⟨step.1, ?_⟩) _ _
      (inside.closure consistent)
    exact owner_eq ((flowing.reaches step.1).edge step.1) header step.2
  · intro path h cycle single
    have member {v : Nat} (onPath : v ∈ path) : graph.Absorbed h v := by
      obtain ⟨reaches, isOwner⟩ := single v onPath
      exact isOwner ▸ absorbs reaches
    have ⟨_, v, _, walk, _⟩ := cycle
    refine ⟨h, (member walk.start_mem).mem_of_cycle consistent cycle walk.start_mem, ?_⟩
    exact fun w onPath => (member onPath).dominates consistent

end Flowing

/-! ## Derived graphs -/

section Derived

variable {heads : List Nat} (headers : HeadersOf graph heads) (consistent : graph.Consistent)
include headers consistent

/-- What stands for a header is reached through the intervals that lead to it. -/
theorem reaches_standIn {head : Nat} (header : graph.Header head) :
    (graph.quotient (heads.map (Interval.ofHead graph))).Reaches .forward root
      (standIn heads head) := by
  induction header with
  | root =>
      rw [standIn_root headers]
      exact .refl root
  | @frontier head v p known attached outside entered inside inductionHypothesis =>
      have isHeader : graph.Header v := .frontier known attached outside entered inside
      refine inductionHypothesis.edge ((mem_successors_quotient headers consistent).mpr
        ⟨head, (headers.mem_iff head).mpr known, v, (headers.mem_iff v).mpr isHeader, rfl, rfl, p,
          entered, fun own => ?_, inside⟩)
      obtain rfl := known.unique isHeader inside own
      exact outside .head

/-- Derived graphs are reached, attached and without self-edges, whatever graph they are
derived from. -/
theorem flowing_quotient : (graph.quotient (heads.map (Interval.ofHead graph))).Flowing := by
  have edges {x y : Nat}
      (edge : y ∈ (graph.quotient (heads.map (Interval.ofHead graph))).successors x) :=
    (mem_successors_quotient headers consistent).mp edge
  refine
    { consistent := consistent_quotient headers consistent
      simple := fun x edge => ?_
      reaches := fun edge => ?_
      attached := fun _ => isDetached_quotient _ _ }
  · obtain ⟨h, isHead, k, _, rfl, same, p, _, outside, inside⟩ := edges edge
    obtain rfl := (standIn_inj isHead).mp same
    exact outside inside
  · obtain ⟨h, isHead, _, _, rfl, _⟩ := edges edge
    exact reaches_standIn headers consistent ((headers.mem_iff h).mp isHead)

end Derived

/-! ## Vertices entered from one place -/

def Below (graph : Digraph α) (v head : Nat) : Prop :=
  graph.Reaches .forward root v ∧ graph.Dominates .forward head v ∧ v ≠ head

theorem isStrictOrder_below (graph : Digraph α) : IsStrictOrder Nat graph.Below where
  irrefl := fun _ below => below.2.2 rfl
  trans := by
    rintro a b c ⟨reachesA, first, different⟩ ⟨reachesB, second, _⟩
    refine ⟨reachesA, second.trans first, ?_⟩
    rintro rfl
    exact different (second.antisymm first reachesA)

/-- Vertices each of which is entered from another of them hold a closed walk. -/
theorem exists_closed_walk (consistent : graph.Consistent) {holds : Nat → Prop}
    (entered : ∀ w, holds w → ∃ p, holds p ∧ w ∈ graph.successors p) {v : Nat} (here : holds v) :
    ∃ x y, holds x ∧ y ∈ graph.successors x ∧ holds y ∧
      Relation.ReflTransGen (fun a b => graph.Edge .forward a b ∧ holds b) y x := by
  by_contra none
  push Not at none
  have order : IsStrictOrder Nat (Relation.TransGen fun a b =>
      holds a ∧ graph.Edge .forward a b ∧ holds b) :=
    { irrefl := by
        intro x around
        obtain ⟨y, first, rest⟩ := Relation.TransGen.head'_iff.mp around
        exact none x y first.1 first.2.1 first.2.2
          (Relation.ReflTransGen.mono (fun _ _ step => step.2) _ _ rest)
      trans := fun _ _ _ => Relation.TransGen.trans }
  -- A vertex that no other of them leads to would have no entrant.
  have descends := (Set.finite_lt_nat graph.size).wellFoundedOn
    (r := Relation.TransGen fun a b => holds a ∧ graph.Edge .forward a b ∧ holds b)
  have inRange {w : Nat} (holdsW : holds w) : w < graph.size := by
    obtain ⟨p, _, edge⟩ := entered w holdsW
    exact consistent.inRange p w edge
  refine descends.induction (P := fun w => ¬ holds w) (inRange here) ?_ here
  intro w _ inductionHypothesis holdsW
  obtain ⟨p, holdsP, edge⟩ := entered w holdsW
  exact inductionHypothesis p (inRange holdsP) (.single ⟨holdsP, edge, holdsW⟩) holdsP

namespace Flowing

variable (flowing : graph.Flowing)
include flowing

/-- What leads to a vertex below another is below it, or the other itself. -/
theorem below_of_edge {head p w : Nat} (below : graph.Below w head)
    (edge : w ∈ graph.successors p) : p = head ∨ graph.Below p head := by
  by_cases isHead : p = head
  · exact .inl isHead
  · refine .inr ⟨flowing.reaches edge, ?_, isHead⟩
    by_contra passes
    obtain ⟨notStart, past⟩ := not_dominates_forward_iff.mp passes
    exact not_dominates_forward_iff.mpr ⟨notStart, past.tail ⟨edge, below.2.2⟩⟩ below.2.1

omit flowing in
theorem ne_root_of_below {head w : Nat} (below : graph.Below w head) : w ≠ root := by
  rintro rfl
  have onWalk := below.2.1 [root] (.stay root)
  exact below.2.2 (List.mem_singleton.mp onWalk).symm

/-- Below a vertex that has nothing below what is below it, no walk is closed. -/
theorem exists_sole_entrance_of_lowest (headed : graph.HeadedCycles) {head v : Nat}
    (below : graph.Below v head)
    (lowest : ∀ w, graph.Below w head → ∀ x, ¬ graph.Below x w) :
    ∃ w, graph.Below w head ∧ ∀ p ∈ graph.predecessors w, p = head := by
  by_contra none
  push Not at none
  have entered (w : Nat) (belowW : graph.Below w head) :
      ∃ p, graph.Below p head ∧ w ∈ graph.successors p := by
    obtain ⟨p, enters, notHead⟩ := none w belowW
    have edge := flowing.consistent.mem_predecessors.mp enters
    exact ⟨p, (flowing.below_of_edge belowW edge).resolve_left notHead, edge⟩
  obtain ⟨x, y, belowX, edge, belowY, back⟩ :=
    exists_closed_walk flowing.consistent entered below
  obtain ⟨top, ⟨toTop, _⟩, dominates⟩ := headed.exists_head
    (graph.tied_around (graph.Below · head) x) ⟨.refl, .refl⟩ belowX.1
  have belowTop : graph.Below top head := by
    cases toTop with
    | refl => exact belowX
    | tail _ last => exact last.2
  have atX := dominates x ⟨.refl, .refl⟩
  have atY := dominates y ⟨.single ⟨edge, belowY⟩, back⟩
  have different : y ≠ x := by
    rintro rfl
    exact flowing.simple y edge
  by_cases isX : x = top
  · exact lowest top belowTop y ⟨belowY.1, atY, isX ▸ different⟩
  · exact lowest top belowTop x ⟨belowX.1, atX, isX⟩

/-- Headed cycles leave a vertex that is entered from one other vertex only. -/
theorem exists_sole_entrance (headed : graph.HeadedCycles) {v : Nat}
    (reaches : graph.Reaches .forward root v) (notRoot : v ≠ root) :
    ∃ head w, graph.Below w head ∧ graph.Reaches .forward root head ∧
      ∀ p ∈ graph.predecessors w, p = head := by
  have order := graph.isStrictOrder_below
  have descends := (Set.finite_lt_nat graph.size).wellFoundedOn (r := graph.Below)
  have inRange {w : Nat} (reachesW : graph.Reaches .forward root w) : w < graph.size :=
    reachesW.lt_size flowing.consistent (start_lt_size flowing.consistent .forward)
  refine descends.induction
    (P := fun head => ∀ v, graph.Reaches .forward root head → graph.Below v head →
      ∃ head w, graph.Below w head ∧ graph.Reaches .forward root head ∧
        ∀ p ∈ graph.predecessors w, p = head)
    (inRange (.refl root)) ?_ v (.refl root) ⟨reaches, fun _ walk => walk.start_mem, notRoot⟩
  intro head _ inductionHypothesis v reachesHead below
  by_cases lowest : ∀ w, graph.Below w head → ∀ x, ¬ graph.Below x w
  · obtain ⟨w, belowW, sole⟩ := flowing.exists_sole_entrance_of_lowest headed below lowest
    exact ⟨head, w, belowW, reachesHead, sole⟩
  · push Not at lowest
    obtain ⟨w, belowW, x, belowX⟩ := lowest
    exact inductionHypothesis w (inRange belowW.1) belowW x belowW.1 belowX

/-! ## Limits -/

/-- A limit with headed cycles has one interval. -/
theorem length_headers_iff {heads : List Nat} (headers : HeadersOf graph heads)
    (limit : isLimit (heads.map (Interval.ofHead graph)) = true) :
    heads.length = 1 ↔ graph.HeadedCycles := by
  have consistent := flowing.consistent
  have single := (isLimit_iff headers consistent).mp limit
  constructor
  · intro one path cycle ⟨v, onPath, reaches⟩
    -- Nothing but the root is reached.
    have isRoot {w : Nat} (reachesW : graph.Reaches .forward root w) : w = root := by
      obtain ⟨head, header, member⟩ := exists_header flowing.consistent flowing.attached reachesW
      obtain ⟨only, rfl⟩ := List.length_eq_one_iff.mp one
      have atRoot := List.mem_singleton.mp ((headers.mem_iff root).mpr .root)
      have atHead := List.mem_singleton.mp ((headers.mem_iff head).mpr header)
      rw [single head header w member, atHead, atRoot]
    refine ⟨v, onPath, fun w member => ?_⟩
    rw [isRoot reaches, isRoot (reaches.trans (reaches_of_closure (cycle.tied onPath member)))]
    exact .refl root
  · intro headed
    have onlyRoot : ∀ head ∈ heads, head = root := by
      intro head isHead
      by_contra notRoot
      have header := (headers.mem_iff head).mp isHead
      obtain ⟨h, w, below, reaches, sole⟩ :=
        flowing.exists_sole_entrance headed (header.reaches flowing.consistent) notRoot
      obtain ⟨owner, isHeader, member⟩ := exists_header flowing.consistent flowing.attached reaches
      obtain rfl := single owner isHeader h member
      obtain ⟨p, entered⟩ : ∃ p, p ∈ graph.predecessors w := by
        cases reaches_iff.mp below.1 with
        | refl => exact absurd rfl (ne_root_of_below below)
        | tail _ edge => exact ⟨_, consistent.mem_predecessors.mpr edge⟩
      have attached := flowing.attached (consistent.mem_predecessors.mp entered)
      refine below.2.2 (single h isHeader w (.absorb (ne_root_of_below below) attached entered ?_))
      intro q enters
      rw [sole q enters]
      exact .head
    obtain ⟨rest, rfl⟩ := List.head?_eq_some_iff.mp headers.first
    cases rest with
    | nil => rfl
    | cons next _ =>
        have isRoot := onlyRoot next (by simp)
        exact absurd (isRoot ▸ List.mem_cons_self) (List.nodup_cons.mp headers.nodup).1

/-- The limit is a single vertex when cycles have heads, if the fuel covers the
intervals. -/
theorem length_limit_iff (fuel : Nat) {heads : List Nat} (headers : HeadersOf graph heads)
    (enough : isLimit (heads.map (Interval.ofHead graph)) = true ∨ heads.length ≤ fuel) :
    (DerivedSequence.limit ⟨heads.map (Interval.ofHead graph),
        derivedFrom fuel graph (heads.map (Interval.ofHead graph))⟩).length = 1 ↔
      graph.HeadedCycles := by
  induction fuel generalizing α graph heads with
  | zero =>
      have positive := List.length_pos_of_mem ((headers.mem_iff _).mpr .root)
      have limit := enough.resolve_right (by omega)
      rw [limit_of_isLimit graph _ limit, List.length_map]
      exact flowing.length_headers_iff headers limit
  | succ fuel inductionHypothesis =>
      by_cases limit : isLimit (heads.map (Interval.ofHead graph)) = true
      · rw [limit_of_isLimit graph _ limit, List.length_map]
        exact flowing.length_headers_iff headers limit
      · obtain ⟨_, _, contracts⟩ := flowing.exists_contracts headers
        have derived := flowing_quotient headers flowing.consistent
        obtain ⟨next, nextHeaders, same⟩ := exists_headersOf derived.consistent
        rw [limit_derivedFrom, if_neg limit, same, contracts.headedCycles_iff]
        refine inductionHypothesis derived nextHeaders (or_iff_not_imp_left.mpr fun notLast => ?_)
        have fewer := length_headers_lt headers flowing.consistent nextHeaders
          (Bool.eq_false_iff.mpr notLast)
        have fuelled := enough.resolve_left limit
        omega

theorem isReducible_iff : graph.isReducible = true ↔ graph.HeadedCycles := by
  obtain ⟨heads, headers, same⟩ := exists_headersOf flowing.consistent
  unfold isReducible limitVertexCount derivedSequence
  dsimp only
  rw [beq_iff_eq, same]
  refine flowing.length_limit_iff _ headers (.inr ?_)
  exact length_le_of_lt headers.nodup fun v isHead =>
    ((headers.mem_iff v).mp isHead).lt_size flowing.consistent

end Flowing

/-- The limit of the derived sequence agrees with dominance.  When no edge leads back
to its source and every vertex that has an edge is reached from the root and attached,
then the limit is a single vertex exactly when every cycle has a vertex that dominates
all of it. -/
theorem isReducible_iff_cycles_headed (built : graph.Built)
    (simple : ∀ v, v ∉ graph.successors v)
    (joined : ∀ v, graph.successors v ≠ [] ∨ graph.predecessors v ≠ [] →
      graph.Reaches .forward root v ∧ graph.isDetached v = false) :
    graph.isReducible = true ↔
      ∀ path, graph.Cycle path → ∃ head ∈ path, ∀ v ∈ path, graph.Dominates .forward head v := by
  have consistent := built.consistent
  have flowing : graph.Flowing :=
    { consistent := consistent
      simple := simple
      reaches := fun edge => (joined _ (.inl (List.ne_nil_of_mem edge))).1
      attached := fun edge =>
        (joined _ (.inr (List.ne_nil_of_mem (consistent.mem_predecessors.mpr edge)))).2 }
  rw [flowing.isReducible_iff]
  refine ⟨fun headed path cycle => ?_, fun headed path cycle _ => headed path cycle⟩
  have ⟨_, _, w, walk, back⟩ := cycle
  exact headed path cycle ⟨w, walk.end_mem, flowing.reaches back⟩

def twoEntries : Digraph Unit :=
  ofEdges 3 [(0, 2), (2, 3), (2, 4), (3, 4), (4, 3), (4, 1)]

/-- Neither of its entries dominates the other, and its limit is no single vertex. -/
theorem isReducible_iff_cycles_headed_two_entries :
    twoEntries.isReducible = false ∧
      ∃ path, twoEntries.Cycle path ∧
        ∀ head ∈ path, ∃ v ∈ path, ¬ twoEntries.Dominates .forward head v := by
  have edge {u v : Nat} (member : v ∈ twoEntries.successors u) :
      twoEntries.Reaches .forward u v := (Reaches.refl u).edge member
  have two : twoEntries.Reaches .forward root 2 := edge (by decide +kernel)
  have three := two.trans (edge (v := 3) (by decide +kernel))
  have four := two.trans (edge (v := 4) (by decide +kernel))
  have one := four.trans (edge (v := 1) (by decide +kernel))
  have joined (v : Nat) (within : v < twoEntries.size) :
      twoEntries.Reaches .forward root v ∧ twoEntries.isDetached v = false := by
    have attached : ∀ v < twoEntries.size, twoEntries.isDetached v = false := by decide +kernel
    refine ⟨?_, attached v within⟩
    have size : twoEntries.size = 5 := by decide +kernel
    obtain rfl | rfl | rfl | rfl | rfl : v = 0 ∨ v = 1 ∨ v = 2 ∨ v = 3 ∨ v = 4 := by omega
    · exact .refl root
    · exact one
    · exact two
    · exact three
    · exact four
  have built : twoEntries.Built := built_ofEdges (by decide)
  have agrees := isReducible_iff_cycles_headed built (fun v loop => ?_)
    (fun v touched => joined v ?_)
  · have answer : twoEntries.isReducible = false := by decide +kernel
    refine ⟨answer, ?_⟩
    by_contra none
    push Not at none
    rw [answer] at agrees
    cases agrees.mpr none
  · have simple : ∀ v < twoEntries.size, v ∉ twoEntries.successors v := by decide +kernel
    exact simple v (lt_size_of_mem_neighbours loop) loop
  · by_contra beyond
    exact touched.elim (absurd (neighbours_eq_nil_of_size_le _ (Nat.not_lt.mp beyond)))
      (absurd (neighbours_eq_nil_of_size_le _ (Nat.not_lt.mp beyond)))

end FlowRegions.Digraph
