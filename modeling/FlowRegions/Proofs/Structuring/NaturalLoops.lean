import FlowRegions.Proofs.Renaming.Residue
import FlowRegions.Proofs.Structuring.SecondEntries

/-!
Contract: the loop that is broken first is an innermost natural loop.

The latches of a natural loop are the sources of the back edges to its head, and
its body is what comes to a latch past the head.  A loop whose head lies in the
body of another, and is not the head of that other, has its whole body there
and misses the other's head.  So the smallest body holds no second head.

Owns:
- `Digraph.BackEdge` and `RegionGraph.Natural`, natural loops as a statement about
  walks;
- `RegionGraph.natural_of_naturalLoop?`, that the loop gathered for a head is one;
- `RegionGraph.Natural.body_subset`, how natural loops nest;
- `Structuring.smallest_loop_innermost`.
-/

namespace FlowRegions

open FlowRegions.Digraph (root terminator)

/-- An edge to a vertex that dominates its source. -/
def Digraph.BackEdge {α : Type} (graph : Digraph α) (latch head : Nat) : Prop :=
  head ∈ graph.successors latch ∧ graph.Dominates .forward head latch

namespace RegionGraph

variable {graph : RegionGraph} {loop : NaturalLoop}

/-- What makes a loop the natural loop of its head: its latches are the sources of all
back edges to the head, each once and by ascending preorder, and its body is the head with
all that comes to a latch past the head. -/
structure Natural (graph : RegionGraph) (loop : NaturalLoop) : Prop where
  latched : loop.latches ≠ []
  latch_iff : ∀ p, p ∈ loop.latches ↔ graph.BackEdge p loop.head
  ascending : loop.latches.Pairwise fun p q =>
    (Analysis.ofGraph graph).order p < (Analysis.ofGraph graph).order q
  nodup : loop.body.Nodup
  body_iff : ∀ x, x ∈ loop.body ↔ x = loop.head ∨
    ∃ latch ∈ loop.latches, ∃ path, graph.Walk .forward x latch path ∧ loop.head ∉ path

/-! ## Gathered loops -/

/-- Vertices that are reached have numbers of their own. -/
theorem pairwise_ascending {vertices : List Nat} (consistent : graph.Consistent)
    (distinct : vertices.Nodup) (reached : ∀ v ∈ vertices, graph.Reaches .forward root v) :
    ((Analysis.ofGraph graph).ascending vertices).Pairwise fun u v =>
      (Analysis.ofGraph graph).order u < (Analysis.ofGraph graph).order v := by
  have sorted := pairwise_sortBy
    (fun u v => decide ((Analysis.ofGraph graph).order u ≤ (Analysis.ofGraph graph).order v))
    (by simp only [decide_eq_true_eq]; omega)
    (by simp only [decide_eq_true_eq, decide_eq_false_iff_not]; omega) vertices
  have apart := (sortBy_perm
    (fun u v => decide ((Analysis.ofGraph graph).order u ≤ (Analysis.ofGraph graph).order v))
    vertices).nodup_iff.mpr distinct
  refine (sorted.and apart).imp_of_mem fun {u v} isU isV both => ?_
  refine lt_of_le_of_ne (of_decide_eq_true both.1) fun same => both.2 ?_
  exact Digraph.Renamed.order_injective consistent (reached u ((mem_sortBy _ _ _).mp isU))
    (reached v ((mem_sortBy _ _ _).mp isV)) same

/-- A gathered body holds what comes to a latch past the head. -/
theorem Gathers.mem_iff {head : Nat} {latches body : List Nat} (consistent : graph.Consistent)
    (dominated : ∀ latch ∈ latches, graph.Dominates .forward head latch)
    (gathers : Gathers graph head (latches.filter (· != head)) body) {x : Nat} :
    x ∈ body ↔ x = head ∨
      ∃ latch ∈ latches, ∃ path, graph.Walk .forward x latch path ∧ head ∉ path := by
  constructor
  · refine gathers.least (fun x => x = head ∨
      ∃ latch ∈ latches, ∃ path, graph.Walk .forward x latch path ∧ head ∉ path) ?_ ?_ x
    · intro v isStart
      rcases List.mem_cons.mp isStart with isHead | inner
      · exact .inl isHead
      · obtain ⟨isLatch, notHead⟩ := List.mem_filter.mp inner
        exact .inr ⟨v, isLatch, [v], .stay v, fun again =>
          bne_iff_ne.mp notHead (List.mem_singleton.mp again).symm⟩
    · rintro v (isHead | ⟨latch, isLatch, path, walk, past⟩) notHead p entering _
      · exact absurd isHead notHead
      · by_cases isHead : p = head
        · exact .inl isHead
        · refine .inr ⟨latch, isLatch, p :: path,
            .step ((mem_entrants consistent).mp entering) walk, fun member => ?_⟩
          exact (List.mem_cons.mp member).elim (fun same => isHead same.symm) past
  · rintro (rfl | ⟨latch, isLatch, path, walk, past⟩)
    · exact gathers.starts x List.mem_cons_self
    · -- Backwards along the walk, which cannot start at the root.
      induction walk with
      | stay v =>
          have notHead : v ≠ head := fun same => past (same ▸ List.mem_cons_self)
          exact gathers.starts v (List.mem_cons_of_mem _
            (List.mem_filter.mpr ⟨isLatch, bne_iff_ne.mpr notHead⟩))
      | @step u v latch path edge rest inductionHypothesis =>
          have later : head ∉ path := fun member => past (List.mem_cons_of_mem u member)
          refine gathers.closed v (inductionHypothesis isLatch later)
            (fun same => later (same ▸ rest.start_mem)) u ((mem_entrants consistent).mpr edge) ?_
          rintro rfl
          exact past (dominated latch isLatch _ (.step edge rest))

section WellFormed

variable (wellFormed : graph.WellFormed)
include wellFormed

theorem WellFormed.ne_root_of_mem {u v : Nat} (edge : v ∈ graph.successors u) : v ≠ root := by
  rcases (wellFormed.ends edge).2 with rfl | live
  · decide
  · exact wellFormed.ne_root_of_isLive live

variable (all : graph.AllReached)
include all

/-- The latches that are computed are the sources of the back edges. -/
theorem mem_latches_iff {head p : Nat} (reaches : graph.Reaches .forward root head) :
    p ∈ ((graph.entrants head).filter fun p =>
      p != root && (Analysis.ofGraph graph).dominates head p) ↔ graph.BackEdge p head := by
  have consistent := wellFormed.consistent
  rw [List.mem_filter, mem_entrants consistent, Bool.and_eq_true, bne_iff_ne,
    Analysis.dominates_iff consistent]
  constructor
  · rintro ⟨edge, _, _, _, dominates⟩
    exact ⟨edge, dominates⟩
  · rintro ⟨edge, dominates⟩
    refine ⟨edge, ?_, reaches, State.reaches_of_edge wellFormed all edge, dominates⟩
    rintro rfl
    exact wellFormed.ne_root_of_mem edge (List.mem_singleton.mp (dominates [root] (.stay root)))

/-- The loop gathered for a head is its natural loop. -/
theorem natural_of_naturalLoop? {head : Nat} (tried : head ∈ (Analysis.ofGraph graph).postorder)
    (found : graph.naturalLoop? (Analysis.ofGraph graph) head = some loop) :
    loop.head = head ∧ graph.Natural loop := by
  have consistent := wellFormed.consistent
  obtain ⟨reaches, _, _⟩ := (Analysis.mem_postorder consistent).mp tried
  obtain ⟨_, latched, _, _⟩ := State.naturalLoop?_cases consistent found
  have latch_iff {p : Nat} := mem_latches_iff wellFormed all (p := p) reaches
  have distinct := (nodup_entrants graph head).filter fun p =>
    p != root && (Analysis.ofGraph graph).dominates head p
  unfold naturalLoop? at found
  dsimp only at found
  generalize (graph.entrants head).filter _ = latches at latch_iff distinct found
  split at found
  · cases found
  cases found
  have sorted {p : Nat} : p ∈ (Analysis.ofGraph graph).ascending latches ↔ p ∈ latches :=
    mem_sortBy _ _ _
  have gathers := gathers_body consistent (distinct.filter (· != head))
    (reaches.lt_size consistent (Digraph.start_lt_size consistent .forward)) fun p inner => by
      obtain ⟨isLatch, notHead⟩ := List.mem_filter.mp inner
      exact ⟨Digraph.lt_size_of_mem_neighbours (latch_iff.mp isLatch).1, bne_iff_ne.mp notHead⟩
  refine ⟨rfl, latched, fun p => sorted.trans latch_iff, ?_, gathers.nodup, fun x => ?_⟩
  · exact pairwise_ascending consistent distinct fun p isLatch =>
      State.reaches_of_edge wellFormed all (latch_iff.mp isLatch).1
  · rw [gathers.mem_iff consistent fun latch isLatch => (latch_iff.mp isLatch).2]
    simp only [sorted]

/-- A back edge to a region that is tried makes a loop. -/
theorem exists_naturalLoop? {p head : Nat} (back : graph.BackEdge p head)
    (tried : head ∈ (Analysis.ofGraph graph).postorder) :
    ∃ loop, graph.naturalLoop? (Analysis.ofGraph graph) head = some loop := by
  obtain ⟨reaches, _, _⟩ := (Analysis.mem_postorder wellFormed.consistent).mp tried
  have isLatch := (mem_latches_iff wellFormed all reaches).mpr back
  unfold naturalLoop?
  dsimp only
  rw [if_neg fun none => List.ne_nil_of_mem isLatch (List.isEmpty_iff.mp none)]
  exact ⟨_, rfl⟩

end WellFormed

/-! ## Nested loops -/

namespace Natural

variable (natural : graph.Natural loop) {x : Nat}
include natural

/-- The head of a loop dominates its body. -/
theorem dominates (member : x ∈ loop.body) : graph.Dominates .forward loop.head x := by
  rcases (natural.body_iff x).mp member with rfl | ⟨latch, isLatch, path, walk, past⟩
  · exact .refl loop.head
  · exact ((natural.latch_iff latch).mp isLatch).2.of_past walk past

variable (wellFormed : graph.WellFormed) (all : graph.AllReached)
include wellFormed all

/-- Some back edge of the loop starts where a walk from its head ends. -/
theorem exists_backEdge : ∃ latch ∈ loop.latches, graph.Reaches .forward root latch ∧
    loop.head ∈ graph.successors latch ∧ graph.Reaches .forward loop.head latch := by
  obtain ⟨latch, isLatch⟩ := List.exists_mem_of_ne_nil _ natural.latched
  obtain ⟨edge, dominates⟩ := (natural.latch_iff latch).mp isLatch
  have reaches := State.reaches_of_edge wellFormed all edge
  have ⟨path, walk⟩ := reaches
  obtain ⟨_, rest, _, onward, _⟩ := walk.split (dominates path walk)
  exact ⟨latch, isLatch, reaches, edge, rest, onward⟩

theorem reaches_head : graph.Reaches .forward root loop.head := by
  obtain ⟨latch, _, reaches, edge, _⟩ := natural.exists_backEdge wellFormed all
  exact reaches.edge edge

/-- The body holds neither the root nor the terminator. -/
theorem ne_root_and_ne_terminator (member : x ∈ loop.body) : x ≠ root ∧ x ≠ terminator := by
  obtain ⟨latch, isLatch, _, edge, around⟩ := natural.exists_backEdge wellFormed all
  constructor
  · rintro rfl
    exact wellFormed.ne_root_of_mem edge
      (List.mem_singleton.mp (natural.dominates member [root] (.stay root)))
  · have onward : ∃ latch ∈ loop.latches, graph.Reaches .forward x latch := by
      rcases (natural.body_iff x).mp member with rfl | ⟨latch, isLatch, path, walk, _⟩
      · exact ⟨latch, isLatch, around⟩
      · exact ⟨latch, isLatch, path, walk⟩
    obtain ⟨last, isLast, path, walk⟩ := onward
    have leads : ∃ y, y ∈ graph.successors x := by
      cases walk with
      | stay => exact ⟨loop.head, ((natural.latch_iff x).mp isLast).1⟩
      | step first _ => exact ⟨_, first⟩
    rintro rfl
    obtain ⟨y, isNext⟩ := leads
    rw [wellFormed.successors_terminator] at isNext
    cases isNext

/-- A natural loop goes around. -/
theorem exists_cycle : ∃ path, graph.Cycle path := by
  obtain ⟨latch, _, _, edge, around⟩ := natural.exists_backEdge wellFormed all
  obtain ⟨path, walk, distinct, _⟩ := Digraph.exists_simple_walk around.closure
  exact ⟨path, distinct, loop.head, latch, walk, edge⟩

/-- A loop whose head lies in the body of another loop, and is not its head, lies in that body
as a whole and leaves out its head. -/
theorem body_subset {inner : NaturalLoop} (innerNatural : graph.Natural inner)
    (inside : inner.head ∈ loop.body) (different : inner.head ≠ loop.head) :
    loop.head ∉ inner.body ∧ ∀ x ∈ inner.body, x ∈ loop.body := by
  have outside : loop.head ∉ inner.body := fun member =>
    different ((innerNatural.dominates member).antisymm (natural.dominates inside)
      (innerNatural.reaches_head wellFormed all))
  refine ⟨outside, fun x member => ?_⟩
  rcases (innerNatural.body_iff x).mp member with rfl | ⟨latch, isLatch, path, walk, past⟩
  · exact inside
  · obtain ⟨edge, _⟩ := (innerNatural.latch_iff latch).mp isLatch
    obtain ⟨last, isLast, onward, rest, pastHead⟩ :=
      ((natural.body_iff inner.head).mp inside).resolve_left different
    -- A walk to the inner latch by way of the outer head would put that head into the
    -- inner body.
    have avoids : loop.head ∉ path := by
      intro through
      obtain ⟨_, after, rfl, walkOn, _⟩ := walk.split through
      exact outside ((innerNatural.body_iff _).mpr (.inr ⟨latch, isLatch, after, walkOn,
        fun again => past (List.mem_append_right _ again)⟩))
    refine (natural.body_iff x).mpr (.inr ⟨last, isLast, path ++ onward,
      walk.append edge rest, fun through => ?_⟩)
    exact (List.mem_append.mp through).elim avoids pastHead

end Natural

/-! ## The smallest loop -/

/-- A fold that prefers lesser items ends with a least one. -/
theorem foldl_least {ι : Type} (size : ι → Nat) {prefer : Option ι → ι → Option ι}
    (first : ∀ x, prefer none x = some x)
    (lesser : ∀ best x, prefer (some best) x = if size x < size best then some x else some best)
    (items : List ι) (start : Option ι) {least : ι}
    (result : items.foldl prefer start = some least) :
    ∀ x, x ∈ items ∨ start = some x → size least ≤ size x := by
  induction items generalizing start with
  | nil =>
      rintro x (member | isStart)
      · cases member
      · obtain rfl := Option.some.inj (isStart.symm.trans result)
        exact le_refl _
  | cons y rest inductionHypothesis =>
      have later := inductionHypothesis (prefer start y) result
      -- What is kept behind the first item is no greater than that item nor than the start.
      have kept : ∃ best, prefer start y = some best ∧ size best ≤ size y ∧
          ∀ x, start = some x → size best ≤ size x := by
        cases start with
        | none => exact ⟨y, first y, le_refl _, nofun⟩
        | some best =>
            rw [lesser]
            split
            · rename_i less
              exact ⟨y, rfl, le_refl _, fun x isStart => Option.some.inj isStart ▸ less.le⟩
            · rename_i notLess
              exact ⟨best, rfl, Nat.not_lt.mp notLess, fun x isStart =>
                (Option.some.inj isStart ▸ le_refl _)⟩
      obtain ⟨best, isBest, leY, leStart⟩ := kept
      have leBest := later best (.inr isBest)
      rintro x (member | isStart)
      · rcases List.mem_cons.mp member with rfl | behind
        · exact leBest.trans leY
        · exact later x (.inl behind)
      · exact leBest.trans (leStart x isStart)

theorem length_body_le_of_smallestLoop? {analysis : Analysis} {other : NaturalLoop} {head : Nat}
    (smallest : graph.smallestLoop? analysis = some loop) (tried : head ∈ analysis.postorder)
    (found : graph.naturalLoop? analysis head = some other) :
    loop.body.length ≤ other.body.length := by
  unfold smallestLoop? at smallest
  exact foldl_least (fun loop : NaturalLoop => loop.body.length) (fun _ => rfl) (fun _ _ => rfl)
    _ none smallest other (.inl (List.mem_filterMap.mpr ⟨head, tried, found⟩))

section WellFormed

variable (wellFormed : graph.WellFormed) (all : graph.AllReached)
include wellFormed all

theorem natural_of_smallestLoop?
    (smallest : graph.smallestLoop? (Analysis.ofGraph graph) = some loop) :
    graph.Natural loop := by
  rcases State.smallestLoop?_cases graph (Analysis.ofGraph graph) with
    ⟨none, _⟩ | ⟨head, tried, other, found, isSmallest⟩
  · cases none.symm.trans smallest
  · obtain rfl := Option.some.inj (isSmallest.symm.trans smallest)
    exact (natural_of_naturalLoop? wellFormed all tried found).2

/-- The smallest loop holds no other head. -/
theorem not_backEdge_of_smallestLoop?
    (smallest : graph.smallestLoop? (Analysis.ofGraph graph) = some loop) {x : Nat}
    (member : x ∈ loop.body) (different : x ≠ loop.head) (p : Nat) : ¬ graph.BackEdge p x := by
  intro back
  have natural := natural_of_smallestLoop? wellFormed all smallest
  obtain ⟨notRoot, notEnd⟩ := natural.ne_root_and_ne_terminator wellFormed all member
  have tried := (Analysis.mem_postorder wellFormed.consistent).mpr
    ⟨(State.reaches_of_edge wellFormed all back.1).edge back.1, notRoot, notEnd⟩
  obtain ⟨inner, found⟩ := exists_naturalLoop? wellFormed all back tried
  obtain ⟨rfl, innerNatural⟩ := natural_of_naturalLoop? wellFormed all tried found
  obtain ⟨outside, inside⟩ := natural.body_subset wellFormed all innerNatural member different
  have headMember := (natural.body_iff loop.head).mpr (.inl rfl)
  have fewer := (List.subperm_of_subset (List.nodup_cons.mpr ⟨outside, innerNatural.nodup⟩)
    (List.cons_subset.mpr ⟨headMember, inside⟩)).length_le
  have least := length_body_le_of_smallestLoop? smallest tried found
  rw [List.length_cons] at fewer
  omega

/-- Without second entries every cycle has a back edge, to the vertex that dominates it. -/
theorem isSome_smallestLoop?_iff (headed : graph.HeadedCycles) :
    (graph.smallestLoop? (Analysis.ofGraph graph)).isSome = true ↔
      ∃ path, graph.Cycle path := by
  rw [Option.isSome_iff_exists]
  constructor
  · rintro ⟨loop, smallest⟩
    exact (natural_of_smallestLoop? wellFormed all smallest).exists_cycle wellFormed all
  · rintro ⟨path, cycle⟩
    have live {v : Nat} (member : v ∈ path) := wellFormed.isLive_of_cycle cycle member
    have ⟨_, start, _, along, _⟩ := cycle
    obtain ⟨head, isHead, dominates⟩ := headed path cycle
      ⟨start, along.start_mem, all start (live along.start_mem)⟩
    obtain ⟨_, latch, same, walk, edge⟩ := cycle.rotate isHead
    have back : graph.BackEdge latch head :=
      ⟨edge, dominates latch (same.mem_iff.mp walk.end_mem)⟩
    have tried := (Analysis.mem_postorder wellFormed.consistent).mpr
      ⟨all head (live isHead), wellFormed.ne_root_of_isLive (live isHead),
        wellFormed.ne_terminator_of_isLive (live isHead)⟩
    obtain ⟨loop, found⟩ := exists_naturalLoop? wellFormed all back tried
    rcases State.smallestLoop?_cases graph (Analysis.ofGraph graph) with
      ⟨_, none⟩ | ⟨_, _, smallest, _, isSmallest⟩
    · cases (none head tried).symm.trans found
    · exact ⟨smallest, isSmallest⟩

end WellFormed

end RegionGraph

/-! ## Runs -/

namespace Structuring

variable {α : Type} {input : Digraph α} {config : Config} {structuring : Structuring}

/-- In every state of a run whose regions are all reached and without second entries, a loop is
found exactly when there is a cycle.  The loop is the natural loop of its head: its latches
are the predecessors that the head dominates, by ascending preorder, and its body is the head
with what comes to a latch past the head.  The head dominates the body, which holds neither
root nor terminator and no head of another natural loop. -/
theorem smallest_loop_innermost (built : input.Built)
    (attached : ∀ {u v}, v ∈ input.successors u →
      input.isDetached u = false ∧ input.isDetached v = false)
    (rooted : ∀ v ∈ input.successors root, (input.payload? v).isSome = true)
    (accepted : Structuring.ofGraph config input = .ok structuring) {state : State}
    (reached : State.Reached config structuring.state state) (all : state.graph.AllReached)
    (straight : state.graph.sidewaysEdge? (Analysis.ofGraph state.graph) = none) :
    ((state.graph.smallestLoop? (Analysis.ofGraph state.graph)).isSome = true ↔
      ∃ path, state.graph.Cycle path) ∧
    ∀ loop, state.graph.smallestLoop? (Analysis.ofGraph state.graph) = some loop →
      ((∀ p, p ∈ loop.latches ↔ loop.head ∈ state.graph.successors p ∧
          state.graph.Dominates .forward loop.head p) ∧
        loop.latches.Pairwise fun p q =>
          (Analysis.ofGraph state.graph).order p < (Analysis.ofGraph state.graph).order q) ∧
      (loop.body.Nodup ∧ ∀ x, x ∈ loop.body ↔ x = loop.head ∨ ∃ latch ∈ loop.latches,
        ∃ path, state.graph.Walk .forward x latch path ∧ loop.head ∉ path) ∧
      (∀ x ∈ loop.body, state.graph.Dominates .forward loop.head x ∧ x ≠ root ∧
        x ≠ terminator) ∧
      ∀ x ∈ loop.body, x ≠ loop.head → ∀ p, x ∈ state.graph.successors p →
        ¬ state.graph.Dominates .forward x p := by
  have wellFormed := wellFormed_of_reached built attached rooted accepted reached
  have headed := (RegionGraph.sidewaysEdge?_eq_none_iff wellFormed.consistent
    wellFormed.successors_terminator).mp straight
  refine ⟨RegionGraph.isSome_smallestLoop?_iff wellFormed all headed, fun loop smallest => ?_⟩
  have natural := RegionGraph.natural_of_smallestLoop? wellFormed all smallest
  refine ⟨⟨natural.latch_iff, natural.ascending⟩, ⟨natural.nodup, natural.body_iff⟩,
    fun x member => ⟨natural.dominates member,
      natural.ne_root_and_ne_terminator wellFormed all member⟩,
    fun x member different p edge dominates => ?_⟩
  exact RegionGraph.not_backEdge_of_smallestLoop? wellFormed all smallest member different p
    ⟨edge, dominates⟩

def nestedLoops : Digraph Unit :=
  Digraph.ofEdges 7 [(0, 2), (2, 3), (3, 4), (4, 5), (4, 6), (5, 4), (6, 4), (6, 7), (7, 3),
    (5, 3), (3, 8), (8, 1)]

/-- The inner loop is found, with both of its latches. -/
theorem smallest_loop_innermost_nestedLoops :
    ∃ structuring, Structuring.ofGraph {} nestedLoops = .ok structuring ∧
      structuring.state.graph.smallestLoop? (Analysis.ofGraph structuring.state.graph) =
        some ⟨4, [5, 6], [4, 5, 6]⟩ ∧
      (∃ path, structuring.state.graph.Cycle path) ∧
      (∀ p, p ∈ [5, 6] ↔ 4 ∈ structuring.state.graph.successors p ∧
        structuring.state.graph.Dominates .forward 4 p) ∧
      ∀ x ∈ [4, 5, 6], x ≠ 4 → ∀ p, x ∈ structuring.state.graph.successors p →
        ¬ structuring.state.graph.Dominates .forward x p := by
  have built : nestedLoops.Built := Digraph.built_ofEdges (by decide)
  have attached : ∀ {u v}, v ∈ nestedLoops.successors u →
      nestedLoops.isDetached u = false ∧ nestedLoops.isDetached v = false :=
    RegionGraph.attached_of_lt (by decide +kernel)
  have rooted : ∀ v ∈ nestedLoops.successors root, (nestedLoops.payload? v).isSome = true := by
    decide +kernel
  have ran : ((Structuring.ofGraph {} nestedLoops).toOption.map fun structuring =>
      (structuring.state.strays (Analysis.ofGraph structuring.state.graph),
        structuring.state.graph.sidewaysEdge? (Analysis.ofGraph structuring.state.graph),
        structuring.state.graph.smallestLoop? (Analysis.ofGraph structuring.state.graph))) =
      some ([], none, some ⟨4, [5, 6], [4, 5, 6]⟩) := by decide +kernel
  cases accepted : Structuring.ofGraph {} nestedLoops with
  | error rejected =>
      rw [accepted] at ran
      cases ran
  | ok structuring =>
      rw [accepted] at ran
      obtain ⟨noStrays, rest⟩ := Prod.mk.inj (Option.some.inj ran)
      obtain ⟨straight, smallest⟩ := Prod.mk.inj rest
      have all := State.allReached_of_strays_eq_nil
        (wellFormed_of_reached built attached rooted accepted .refl) noStrays
      obtain ⟨finds, shape⟩ :=
        smallest_loop_innermost built attached rooted accepted .refl all straight
      obtain ⟨⟨latches, _⟩, _, _, alone⟩ := shape _ smallest
      exact ⟨structuring, rfl, smallest, finds.mp (smallest ▸ rfl), latches, alone⟩

end Structuring

end FlowRegions
