import FlowRegions.Proofs.Interval.Quotient
import FlowRegions.Proofs.Renaming.Graph
import Mathlib.Combinatorics.Enumerative.DoubleCounting

/-!
Contract: graphs whose vertices correspond have limits of the same size.

Vertices that correspond belong to intervals that correspond, and the headers of
these stand for vertices of derived graphs that correspond in turn.  In which
order headers are found, and so which vertex of the derived graph stands for
which, differs between the two.

Owns:
- `Digraph.Corresponds`, a partial bijection of vertices under which edges
  correspond both ways;
- `Digraph.Corresponds.limitVertexCount_eq`, by way of derived graphs that
  correspond step by step.
-/

namespace FlowRegions

namespace Digraph

variable {α β : Type} {graph : Digraph α} {other : Digraph β} {related : Nat → Nat → Prop}

/-- Related vertices are related one to one, and have edges to and from related
vertices. -/
structure Corresponds (related : Nat → Nat → Prop) (graph : Digraph α) (other : Digraph β) :
    Prop where
  consistent : graph.Consistent
  consistent' : other.Consistent
  root : related root root
  unique : ∀ {u u' v v'}, related u u' → related v v' → (u = v ↔ u' = v')
  detached : ∀ {u u'}, related u u' → other.isDetached u' = graph.isDetached u
  forth : ∀ {u u' v}, related u u' → v ∈ graph.successors u →
    ∃ v', related v v' ∧ v' ∈ other.successors u'
  back : ∀ {u u' v'}, related u u' → v' ∈ other.successors u' →
    ∃ v, related v v' ∧ v ∈ graph.successors u
  forth_pred : ∀ {v v' u}, related v v' → v ∈ graph.successors u →
    ∃ u', related u u' ∧ v' ∈ other.successors u'
  back_pred : ∀ {v v' u'}, related v v' → v' ∈ other.successors u' →
    ∃ u, related u u' ∧ v ∈ graph.successors u

namespace Corresponds

section Intervals

variable (corresponds : Corresponds related graph other)
include corresponds

theorem symm : Corresponds (flip related) other graph where
  consistent := corresponds.consistent'
  consistent' := corresponds.consistent
  root := corresponds.root
  unique first second := (corresponds.unique first second).symm
  detached pair := (corresponds.detached pair).symm
  forth := corresponds.back
  back := corresponds.forth
  forth_pred := corresponds.back_pred
  back_pred := corresponds.forth_pred

theorem edge {u u' v v' : Nat} (source : related u u') (target : related v v')
    (edge : v ∈ graph.successors u) : v' ∈ other.successors u' := by
  obtain ⟨w', pair, isEdge⟩ := corresponds.forth source edge
  rwa [(corresponds.unique target pair).mp rfl]

/-- What an interval absorbs corresponds to what the other absorbs. -/
theorem exists_of_absorbed {h h' v : Nat} (heads : related h h')
    (member : graph.Absorbed h v) : ∃ v', related v v' ∧ other.Absorbed h' v' := by
  induction member with
  | head => exact ⟨h', heads, .head⟩
  | @absorb v p notRoot attached entered inside inductionHypothesis =>
      obtain ⟨p', sources, _⟩ := inductionHypothesis p entered
      obtain ⟨v', pair, edge⟩ := corresponds.forth sources
        (corresponds.consistent.mem_predecessors.mp entered)
      refine ⟨v', pair, .absorb ?_ ?_ (corresponds.consistent'.mem_predecessors.mpr edge)
        fun q' entering => ?_⟩
      · exact fun isRoot => notRoot ((corresponds.unique pair corresponds.root).mpr isRoot)
      · rw [corresponds.detached pair, attached]
      · obtain ⟨q, others, isEdge⟩ := corresponds.back_pred pair
          (corresponds.consistent'.mem_predecessors.mp entering)
        obtain ⟨r', same, absorbed⟩ := inductionHypothesis q
          (corresponds.consistent.mem_predecessors.mpr isEdge)
        rwa [(corresponds.unique others same).mp rfl]

theorem absorbed {h h' v v' : Nat} (heads : related h h') (pair : related v v')
    (member : graph.Absorbed h v) : other.Absorbed h' v' := by
  obtain ⟨w', same, absorbed⟩ := corresponds.exists_of_absorbed heads member
  rwa [(corresponds.unique pair same).mp rfl]

theorem exists_of_header {v : Nat} (header : graph.Header v) :
    ∃ v', related v v' ∧ other.Header v' := by
  induction header with
  | root => exact ⟨Digraph.root, corresponds.root, .root⟩
  | @frontier head v p _ attached outside entered inside inductionHypothesis =>
      obtain ⟨head', heads, isHeader⟩ := inductionHypothesis
      obtain ⟨p', sources, inside'⟩ := corresponds.exists_of_absorbed heads inside
      obtain ⟨v', pair, edge⟩ := corresponds.forth sources
        (corresponds.consistent.mem_predecessors.mp entered)
      refine ⟨v', pair, .frontier isHeader ?_ (fun inner => outside ?_)
        (corresponds.consistent'.mem_predecessors.mpr edge) inside'⟩
      · rw [corresponds.detached pair, attached]
      · exact corresponds.symm.absorbed heads pair inner

variable {heads heads' : List Nat} (headers : HeadersOf graph heads)
  (headers' : HeadersOf other heads')
include headers headers'

theorem exists_of_head {h : Nat} (isHead : h ∈ heads) : ∃ h' ∈ heads', related h h' := by
  obtain ⟨h', pair, isHeader⟩ := corresponds.exists_of_header ((headers.mem_iff h).mp isHead)
  exact ⟨h', (headers'.mem_iff h').mpr isHeader, pair⟩

theorem length_heads_le : heads.length ≤ heads'.length := by
  rw [← List.toFinset_card_of_nodup headers.nodup, ← List.toFinset_card_of_nodup headers'.nodup]
  apply Finset.card_le_card_of_forall_subsingleton related
  · intro h isHead
    obtain ⟨h', isHead', pair⟩ :=
      corresponds.exists_of_head headers headers' (List.mem_toFinset.mp isHead)
    exact ⟨h', List.mem_toFinset.mpr isHead', pair⟩
  · intro h' _ h first k second
    exact (corresponds.unique first.2 second.2).mpr rfl

theorem length_heads_eq : heads.length = heads'.length :=
  Nat.le_antisymm (corresponds.length_heads_le headers headers')
    (corresponds.symm.length_heads_le headers' headers)

theorem isLimit_of_isLimit (limit : isLimit (heads.map (Interval.ofHead graph)) = true) :
    isLimit (heads'.map (Interval.ofHead other)) = true := by
  rw [isLimit_iff headers corresponds.consistent] at limit
  rw [isLimit_iff headers' corresponds.consistent']
  intro h' isHeader v' member
  obtain ⟨h, heads, isHeader⟩ := corresponds.symm.exists_of_header isHeader
  obtain ⟨v, pair, member⟩ := corresponds.symm.exists_of_absorbed heads member
  exact (corresponds.unique pair heads).mp (limit h isHeader v member)

end Intervals

/-! ## Derived graphs -/

def StandIns (related : Nat → Nat → Prop) (heads heads' : List Nat) (q q' : Nat) : Prop :=
  ∃ h ∈ heads, ∃ h' ∈ heads', related h h' ∧ q = standIn heads h ∧ q' = standIn heads' h'

theorem StandIns.flip {heads heads' : List Nat} {q q' : Nat}
    (standIns : StandIns related heads heads' q q') :
    StandIns (flip related) heads' heads q' q := by
  obtain ⟨h, isHead, h', isHead', pair, source, target⟩ := standIns
  exact ⟨h', isHead', h, isHead, pair, target, source⟩

variable {heads heads' : List Nat}

/-- An edge of a derived graph leads between stand-ins, and so does the edge that
corresponds to it. -/
theorem exists_standIns (corresponds : Corresponds related graph other)
    (headers : HeadersOf graph heads) (headers' : HeadersOf other heads') {u v : Nat}
    (edge : v ∈ (graph.quotient (heads.map (Interval.ofHead graph))).successors u) :
    ∃ u' v', StandIns related heads heads' u u' ∧ StandIns related heads heads' v v' ∧
      v' ∈ (other.quotient (heads'.map (Interval.ofHead other))).successors u' := by
  obtain ⟨h, isHead, k, isTarget, rfl, rfl, p, entered, outside, inside⟩ :=
    (mem_successors_quotient headers corresponds.consistent).mp edge
  obtain ⟨h', isHead', sources⟩ := corresponds.exists_of_head headers headers' isHead
  obtain ⟨k', isTarget', targets⟩ := corresponds.exists_of_head headers headers' isTarget
  obtain ⟨p', pair, inside'⟩ := corresponds.exists_of_absorbed sources inside
  refine ⟨_, _, ⟨h, isHead, h', isHead', sources, rfl, rfl⟩,
    ⟨k, isTarget, k', isTarget', targets, rfl, rfl⟩,
    (mem_successors_quotient headers' corresponds.consistent').mpr
      ⟨h', isHead', k', isTarget', rfl, rfl, p', ?_, fun inner => outside ?_, inside'⟩⟩
  · exact corresponds.consistent'.mem_predecessors.mpr
      (corresponds.edge pair targets (corresponds.consistent.mem_predecessors.mp entered))
  · exact corresponds.symm.absorbed targets pair inner

theorem standIns_unique (corresponds : Corresponds related graph other) {u u' v v' : Nat}
    (first : StandIns related heads heads' u u') (second : StandIns related heads heads' v v') :
    u = v ↔ u' = v' := by
  obtain ⟨h, isHead, h', isHead', pair, rfl, rfl⟩ := first
  obtain ⟨k, _, k', _, pair', rfl, rfl⟩ := second
  rw [standIn_inj isHead, standIn_inj isHead', corresponds.unique pair pair']

theorem quotient (corresponds : Corresponds related graph other)
    (headers : HeadersOf graph heads) (headers' : HeadersOf other heads') :
    Corresponds (StandIns related heads heads')
      (graph.quotient (heads.map (Interval.ofHead graph)))
      (other.quotient (heads'.map (Interval.ofHead other))) where
  consistent := consistent_quotient headers corresponds.consistent
  consistent' := consistent_quotient headers' corresponds.consistent'
  root := ⟨Digraph.root, (headers.mem_iff _).mpr .root, Digraph.root,
    (headers'.mem_iff _).mpr .root, corresponds.root, (standIn_root headers).symm,
    (standIn_root headers').symm⟩
  unique := corresponds.standIns_unique
  detached := by
    intro u u' _
    rw [isDetached_quotient, isDetached_quotient]
  forth := by
    intro u u' v pair edge
    obtain ⟨w', v', source, target, isEdge⟩ := corresponds.exists_standIns headers headers' edge
    rw [← (corresponds.standIns_unique pair source).mp rfl] at isEdge
    exact ⟨v', target, isEdge⟩
  back := by
    intro u u' v' pair edge
    obtain ⟨w, v, source, target, isEdge⟩ :=
      corresponds.symm.exists_standIns headers' headers edge
    rw [← (corresponds.symm.standIns_unique pair.flip source).mp rfl] at isEdge
    exact ⟨v, target.flip, isEdge⟩
  forth_pred := by
    intro v v' u pair edge
    obtain ⟨u', w', source, target, isEdge⟩ := corresponds.exists_standIns headers headers' edge
    rw [← (corresponds.standIns_unique pair target).mp rfl] at isEdge
    exact ⟨u', source, isEdge⟩
  back_pred := by
    intro v v' u' pair edge
    obtain ⟨u, w, source, target, isEdge⟩ :=
      corresponds.symm.exists_standIns headers' headers edge
    rw [← (corresponds.symm.standIns_unique pair.flip target).mp rfl] at isEdge
    exact ⟨u, source.flip, isEdge⟩

end Corresponds

/-! ## Limits -/

/-- Limits of graphs that correspond have the same size, if the fuel covers the
intervals of each. -/
theorem Corresponds.length_limit_eq (fuel fuel' : Nat)
    (corresponds : Corresponds related graph other) {heads heads' : List Nat}
    (headers : HeadersOf graph heads) (headers' : HeadersOf other heads')
    (enough : isLimit (heads.map (Interval.ofHead graph)) = true ∨ heads.length ≤ fuel)
    (enough' : isLimit (heads'.map (Interval.ofHead other)) = true ∨ heads'.length ≤ fuel') :
    (DerivedSequence.limit ⟨heads.map (Interval.ofHead graph),
        derivedFrom fuel graph (heads.map (Interval.ofHead graph))⟩).length =
      (DerivedSequence.limit ⟨heads'.map (Interval.ofHead other),
        derivedFrom fuel' other (heads'.map (Interval.ofHead other))⟩).length := by
  induction fuel generalizing α β graph other related fuel' heads heads' with
  | zero =>
      have positive : 0 < heads.length :=
        List.length_pos_of_mem ((headers.mem_iff _).mpr .root)
      have limit := enough.resolve_right (by omega)
      have limit' := corresponds.isLimit_of_isLimit headers headers' limit
      rw [limit_of_isLimit graph _ limit, limit_of_isLimit other _ limit', List.length_map,
        List.length_map]
      exact corresponds.length_heads_eq headers headers'
  | succ fuel inductionHypothesis =>
      by_cases limit : isLimit (heads.map (Interval.ofHead graph)) = true
      · have limit' := corresponds.isLimit_of_isLimit headers headers' limit
        rw [limit_of_isLimit graph _ limit, limit_of_isLimit other _ limit', List.length_map,
          List.length_map]
        exact corresponds.length_heads_eq headers headers'
      -- Derived graphs that are no limit have fewer intervals, so the fuel lasts.
      · have notLimit' : isLimit (heads'.map (Interval.ofHead other)) ≠ true := fun limit' =>
          limit (corresponds.symm.isLimit_of_isLimit headers' headers limit')
        have positive' : 0 < heads'.length :=
          List.length_pos_of_mem ((headers'.mem_iff _).mpr .root)
        have fuelled := enough.resolve_left limit
        have fuelled' := enough'.resolve_left notLimit'
        obtain ⟨fuel', rfl⟩ : ∃ less, fuel' = less + 1 := ⟨fuel' - 1, by omega⟩
        have derived := corresponds.quotient headers headers'
        obtain ⟨next, nextHeaders, same⟩ := exists_headersOf derived.consistent
        obtain ⟨next', nextHeaders', same'⟩ := exists_headersOf derived.consistent'
        rw [limit_derivedFrom, limit_derivedFrom, if_neg limit, if_neg notLimit', same, same']
        refine inductionHypothesis fuel' derived nextHeaders nextHeaders' ?_ ?_
        · refine or_iff_not_imp_left.mpr fun notLast => ?_
          have := length_headers_lt headers corresponds.consistent nextHeaders
            (Bool.eq_false_iff.mpr notLast)
          omega
        · refine or_iff_not_imp_left.mpr fun notLast => ?_
          have := length_headers_lt headers' corresponds.consistent' nextHeaders'
            (Bool.eq_false_iff.mpr notLast)
          omega

theorem Corresponds.limitVertexCount_eq (corresponds : Corresponds related graph other) :
    graph.limitVertexCount = other.limitVertexCount := by
  obtain ⟨heads, headers, same⟩ := exists_headersOf corresponds.consistent
  obtain ⟨heads', headers', same'⟩ := exists_headersOf corresponds.consistent'
  unfold limitVertexCount derivedSequence
  dsimp only
  rw [same, same']
  refine corresponds.length_limit_eq _ _ headers headers' (.inr ?_) (.inr ?_)
  · exact length_le_of_lt headers.nodup fun v isHead =>
      ((headers.mem_iff v).mp isHead).lt_size corresponds.consistent
  · exact length_le_of_lt headers'.nodup fun v isHead =>
      ((headers'.mem_iff v).mp isHead).lt_size corresponds.consistent'

/-- Names are a correspondence. -/
theorem Renamed.corresponds {name : Nat → Nat} {relabel : α → β}
    (renamed : Renamed name relabel graph other) :
    Corresponds (fun u u' => name u = u') graph other where
  consistent := renamed.consistent
  consistent' := renamed.consistent'
  root := renamed.name_root
  unique := by
    rintro u _ v _ rfl rfl
    exact renamed.name_inj.symm
  detached := by
    rintro u _ rfl
    exact renamed.isDetached_name
  forth := by
    rintro u _ v rfl edge
    exact ⟨name v, rfl, renamed.mem_successors_name.mpr edge⟩
  back := by
    rintro u _ v' rfl edge
    obtain ⟨u', v, same, rfl, isEdge⟩ := renamed.exists_of_edge edge
    rw [renamed.name_inj.mp same] at isEdge
    exact ⟨v, rfl, isEdge⟩
  forth_pred := by
    rintro v _ u rfl edge
    exact ⟨name u, rfl, renamed.mem_successors_name.mpr edge⟩
  back_pred := by
    rintro v _ u' rfl edge
    obtain ⟨u, v', rfl, same, isEdge⟩ := renamed.exists_of_edge edge
    rw [renamed.name_inj.mp same] at isEdge
    exact ⟨u, rfl, isEdge⟩

end Digraph

end FlowRegions
