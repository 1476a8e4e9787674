import FlowRegions.Interval.Derived
import FlowRegions.Proofs.Digraph.Consistency
import FlowRegions.Proofs.Lists
import Mathlib.Data.List.Nodup

/-!
Contract: intervals and their headers as least sets, whatever the order in which
they are found.

An interval is the least set that holds its header and every vertex entered from
it only.  Headers are the least set that holds the root and every vertex that is
entered from an interval without belonging to it.  The loops that compute both
have fuel for every vertex there is, so they come to an end.

Owns:
- `Digraph.Absorbed` and `Digraph.Header`, the two sets;
- `Digraph.HeadersOf`, the intervals of a graph in terms of them;
- `Digraph.Header.eq_of_absorbed`, that a header lies in no other interval.
-/

namespace FlowRegions.Digraph

variable {α : Type} {graph : Digraph α}

inductive Absorbed (graph : Digraph α) (head : Nat) : Nat → Prop
  | head : Absorbed graph head head
  | absorb {v p : Nat} (notRoot : v ≠ root) (attached : graph.isDetached v = false)
      (entered : p ∈ graph.predecessors v)
      (inside : ∀ q ∈ graph.predecessors v, Absorbed graph head q) : Absorbed graph head v

inductive Header (graph : Digraph α) : Nat → Prop
  | root : Header graph root
  | frontier {head v p : Nat} (known : Header graph head) (attached : graph.isDetached v = false)
      (outside : ¬ Absorbed graph head v) (entered : p ∈ graph.predecessors v)
      (inside : Absorbed graph head p) : Header graph v

/-! ## Headers lie in their own interval only -/

/-- The interval of a member lies within an interval. -/
theorem Absorbed.trans {head inner v : Nat} (member : Absorbed graph head inner)
    (below : Absorbed graph inner v) : Absorbed graph head v := by
  induction below with
  | head => exact member
  | absorb notRoot attached entered _ inductionHypothesis =>
      exact .absorb notRoot attached entered inductionHypothesis

/-- Of two intervals that share a vertex, one holds the header of the other. -/
theorem Absorbed.nested {head other v : Nat} (member : Absorbed graph head v)
    (member' : Absorbed graph other v) : Absorbed graph other head ∨ Absorbed graph head other := by
  induction member with
  | head => exact .inl member'
  | absorb notRoot attached entered inside inductionHypothesis =>
      cases member' with
      | head => exact .inr (.absorb notRoot attached entered inside)
      | absorb _ _ _ inside' => exact inductionHypothesis _ entered (inside' _ entered)

/-- A header belongs to no interval but its own. -/
theorem Header.eq_of_absorbed {v head : Nat} (header : Header graph v)
    (member : Absorbed graph head v) : v = head := by
  induction header generalizing head with
  | root =>
      cases member with
      | head => rfl
      | absorb notRoot => exact absurd rfl notRoot
  | frontier _ _ outside entered inside inductionHypothesis =>
      cases member with
      | head => rfl
      | absorb _ _ _ inside' =>
          -- The interval that leads to the header overlaps the one that holds it.
          rcases inside.nested (inside' _ entered) with holds | held
          · obtain rfl := inductionHypothesis holds
            exact absurd (.absorb ‹_› ‹_› ‹_› inside') outside
          · exact absurd (held.trans (.absorb ‹_› ‹_› ‹_› inside')) outside

theorem Absorbed.lt_size {head v : Nat} (within : head < graph.size)
    (member : Absorbed graph head v) : v < graph.size := by
  cases member with
  | head => exact within
  | absorb _ _ entered _ => exact lt_size_of_mem_neighbours entered

theorem Header.lt_size (consistent : graph.Consistent) {v : Nat} (header : Header graph v) :
    v < graph.size := by
  cases header with
  | root => exact Nat.lt_of_lt_of_le Nat.two_pos consistent.atLeastTwo
  | frontier _ _ _ entered _ => exact lt_size_of_mem_neighbours entered

end Digraph

/-! ## Growing an interval -/

namespace Interval

variable {α : Type} {graph : Digraph α}

/-- An interval under construction: members only, none twice. -/
structure Growing (graph : Digraph α) (head : Nat) (interval : Interval) : Prop where
  head_eq : interval.head = head
  head_mem : head ∈ interval.members
  nodup : interval.members.Nodup
  absorbed : ∀ v ∈ interval.members, graph.Absorbed head v

theorem absorbs_iff {interval : Interval} {v : Nat} : interval.absorbs graph v = true ↔
    v ≠ Digraph.root ∧ graph.isDetached v = false ∧ v ∉ interval.members ∧
      graph.predecessors v ≠ [] ∧ ∀ p ∈ graph.predecessors v, p ∈ interval.members := by
  simp [absorbs, contains, and_assoc]

theorem Growing.add {head : Nat} {interval : Interval} (growing : Growing graph head interval)
    {v : Nat} (absorbs : interval.absorbs graph v = true) :
    Growing graph head { interval with members := interval.members ++ [v] } := by
  obtain ⟨notRoot, attached, isNew, entered, inside⟩ := absorbs_iff.mp absorbs
  refine ⟨growing.head_eq, List.mem_append_left _ growing.head_mem, ?_, fun w member => ?_⟩
  · exact growing.nodup.append (List.nodup_singleton v) (by simpa using isNew)
  · rcases List.mem_append.mp member with old | new
    · exact growing.absorbed w old
    · obtain rfl := List.mem_singleton.mp new
      obtain ⟨p, isEntry⟩ := List.exists_mem_of_ne_nil _ entered
      exact .absorb notRoot attached isEntry fun q enters => growing.absorbed q (inside q enters)

/-- A sweep keeps to members, and adds some unless none can be added. -/
theorem Growing.sweep {head : Nat} {interval : Interval} (growing : Growing graph head interval) :
    Growing graph head (interval.sweep graph) ∧
      (interval.sweep graph = interval ∧ (∀ v < graph.size, interval.absorbs graph v = false) ∨
        interval.size < (interval.sweep graph).size) := by
  have swept (vertices : List Nat) {interval : Interval} (growing : Growing graph head interval) :
      let final := vertices.foldl (fun interval v =>
        if interval.absorbs graph v then
          ({ interval with members := interval.members ++ [v] } : Interval)
        else interval) interval
      Growing graph head final ∧
        (final = interval ∧ (∀ v ∈ vertices, interval.absorbs graph v = false) ∨
          interval.size < final.size) := by
    induction vertices generalizing interval with
    | nil => exact ⟨growing, .inl ⟨rfl, fun v member => absurd member List.not_mem_nil⟩⟩
    | cons v rest inductionHypothesis =>
        dsimp only
        rw [List.foldl_cons]
        by_cases absorbs : interval.absorbs graph v = true
        · rw [if_pos absorbs]
          obtain ⟨final, grown⟩ := inductionHypothesis (growing.add absorbs)
          have longer : interval.size < Interval.size
              { interval with members := interval.members ++ [v] } := by
            simp [size]
          refine ⟨final, .inr ?_⟩
          rcases grown with ⟨same, _⟩ | more
          · rw [same]
            exact longer
          · exact Nat.lt_trans longer more
        · rw [if_neg absorbs]
          obtain ⟨final, grown⟩ := inductionHypothesis growing
          refine ⟨final, grown.imp_left fun ⟨same, settled⟩ => ⟨same, ?_⟩⟩
          exact List.forall_mem_cons.mpr ⟨by simpa using absorbs, settled⟩
  obtain ⟨final, grown⟩ := swept graph.indices growing
  refine ⟨final, grown.imp_left fun ⟨same, settled⟩ => ⟨same, fun v within => ?_⟩⟩
  exact settled v (List.mem_range.mpr within)

structure Complete (graph : Digraph α) (head : Nat) (interval : Interval) : Prop where
  head_eq : interval.head = head
  nodup : interval.members.Nodup
  mem_iff : ∀ v, v ∈ interval.members ↔ graph.Absorbed head v

/-- What absorbs nothing more is complete. -/
theorem Growing.complete {head : Nat} {interval : Interval}
    (growing : Growing graph head interval)
    (settled : ∀ v < graph.size, interval.absorbs graph v = false) :
    Complete graph head interval := by
  refine ⟨growing.head_eq, growing.nodup, fun v => ⟨growing.absorbed v, fun member => ?_⟩⟩
  induction member with
  | head => exact growing.head_mem
  | @absorb v p notRoot attached entered _ inductionHypothesis =>
      by_contra outside
      have absorbs := absorbs_iff.mpr
        ⟨notRoot, attached, outside, List.ne_nil_of_mem entered, inductionHypothesis⟩
      rw [settled v (Digraph.lt_size_of_mem_neighbours entered)] at absorbs
      cases absorbs

theorem Growing.size_le {head : Nat} {interval : Interval}
    (growing : Growing graph head interval) (within : head < graph.size) :
    interval.size ≤ graph.size :=
  length_le_of_lt growing.nodup fun v member => (growing.absorbed v member).lt_size within

theorem Growing.complete_grow {head : Nat} (within : head < graph.size) (fuel : Nat)
    {interval : Interval} (growing : Growing graph head interval)
    (enough : graph.size < interval.size + fuel) :
    Complete graph head (grow graph fuel interval) := by
  induction fuel generalizing interval with
  | zero =>
      have bound := growing.size_le within
      omega
  | succ fuel inductionHypothesis =>
      obtain ⟨swept, grown⟩ := growing.sweep
      rw [grow]
      split
      · rename_i same
        rcases grown with ⟨_, settled⟩ | more
        · exact growing.complete settled
        · omega
      · rename_i different
        rcases grown with ⟨same, _⟩ | more
        · exact absurd (congrArg size same) different
        · exact inductionHypothesis swept (by omega)

theorem growing_singleton (head : Nat) : Growing graph head (singleton head) := by
  refine ⟨rfl, List.mem_singleton_self head, List.nodup_singleton head, fun v member => ?_⟩
  rw [List.mem_singleton.mp member]
  exact .head

/-- The interval of a header holds what it absorbs. -/
theorem complete_ofHead {head : Nat} (within : head < graph.size) :
    Complete graph head (ofHead graph head) := by
  refine (growing_singleton head).complete_grow within graph.size ?_
  simp only [singleton, size, List.length_singleton]
  omega

end Interval

/-! ## Headers -/

namespace Digraph

variable {α : Type} {graph : Digraph α}

structure HeadersOf (graph : Digraph α) (heads : List Nat) : Prop where
  nodup : heads.Nodup
  mem_iff : ∀ v, v ∈ heads ↔ graph.Header v
  first : heads.head? = some root

/-- The search for headers: those whose intervals are known, and those pending. -/
structure Heading (graph : Digraph α) (done pending known : List Nat) : Prop where
  known_perm : known.Perm (done ++ pending)
  nodup : known.Nodup
  rooted : root ∈ known
  header : ∀ v ∈ known, graph.Header v
  settled : ∀ head ∈ done, ∀ v p, graph.isDetached v = false → ¬ graph.Absorbed head v →
    p ∈ graph.predecessors v → graph.Absorbed head p → v ∈ known

theorem heading_start : Heading graph [] [root] [root] where
  known_perm := List.Perm.refl _
  nodup := List.nodup_singleton root
  rooted := List.mem_singleton_self root
  header := fun _ member => List.mem_singleton.mp member ▸ .root
  settled := fun _ member => absurd member List.not_mem_nil

theorem mem_frontier {interval : Interval} {head : Nat} (complete : interval.Complete graph head)
    {known : List Nat} {v : Nat} : v ∈ interval.frontier graph known ↔
      v < graph.size ∧ graph.isDetached v = false ∧ ¬ graph.Absorbed head v ∧ v ∉ known ∧
        ∃ p ∈ graph.predecessors v, graph.Absorbed head p := by
  simp [Interval.frontier, Interval.contains, indices, complete.mem_iff, and_assoc]

theorem Heading.next (consistent : graph.Consistent) {done pending known : List Nat} {head : Nat}
    (heading : Heading graph done (head :: pending) known) :
    let fresh := (Interval.ofHead graph head).frontier graph known
    Heading graph (done ++ [head]) (pending ++ fresh) (known ++ fresh) := by
  intro fresh
  have isKnown : head ∈ known :=
    heading.known_perm.mem_iff.mpr (List.mem_append_right _ List.mem_cons_self)
  have isHeader := heading.header head isKnown
  have complete := Interval.complete_ofHead (isHeader.lt_size consistent)
  have isFresh {v : Nat} : v ∈ fresh ↔
      v < graph.size ∧ graph.isDetached v = false ∧ ¬ graph.Absorbed head v ∧ v ∉ known ∧
        ∃ p ∈ graph.predecessors v, graph.Absorbed head p := mem_frontier complete
  refine
    { known_perm := ?_
      nodup := ?_
      rooted := List.mem_append_left _ heading.rooted
      header := ?_
      settled := ?_ }
  · have moved := heading.known_perm.append_right fresh
    simpa using moved
  · refine heading.nodup.append (List.nodup_range.filter _) fun v old new => ?_
    exact (isFresh.mp new).2.2.2.1 old
  · intro v member
    rcases List.mem_append.mp member with old | new
    · exact heading.header v old
    · obtain ⟨_, attached, outside, _, p, entered, inside⟩ := isFresh.mp new
      exact .frontier isHeader attached outside entered inside
  · intro h isDone v p attached outside entered inside
    rcases List.mem_append.mp isDone with before | isHead
    · exact List.mem_append_left _ (heading.settled h before v p attached outside entered inside)
    · obtain rfl := List.mem_singleton.mp isHead
      by_cases old : v ∈ known
      · exact List.mem_append_left _ old
      · exact List.mem_append_right _ (isFresh.mpr
          ⟨lt_size_of_mem_neighbours entered, attached, outside, old, p, entered, inside⟩)

/-- No more headers come up than there are vertices. -/
theorem Heading.length_le (consistent : graph.Consistent) {done pending known : List Nat}
    (heading : Heading graph done pending known) : done.length + pending.length ≤ graph.size := by
  have bound := length_le_of_lt heading.nodup fun v member =>
    (heading.header v member).lt_size consistent
  rwa [heading.known_perm.length_eq, List.length_append] at bound

/-- A search with nothing pending has found every header. -/
theorem Heading.ended {done known : List Nat} (heading : Heading graph done [] known) :
    done.Nodup ∧ ∀ v, v ∈ done ↔ graph.Header v := by
  have same := heading.known_perm
  rw [List.append_nil] at same
  refine ⟨same.nodup_iff.mp heading.nodup, fun v => ⟨fun member =>
    heading.header v (same.mem_iff.mpr member), fun header => same.mem_iff.mp ?_⟩⟩
  induction header with
  | root => exact heading.rooted
  | frontier _ attached outside entered inside inductionHypothesis =>
      exact heading.settled _ (same.mem_iff.mp inductionHypothesis) _ _ attached outside entered
        inside

/-- The search comes to an end with every header. -/
theorem Heading.exists_heads (consistent : graph.Consistent) (fuel : Nat)
    {done pending known : List Nat} (heading : Heading graph done pending known)
    (enough : graph.size ≤ done.length + fuel) :
    ∃ rest, graph.intervalsFrom fuel known pending = rest.map (Interval.ofHead graph) ∧
      pending <+: rest ∧ (done ++ rest).Nodup ∧ ∀ v, v ∈ done ++ rest ↔ graph.Header v := by
  induction fuel generalizing done pending known with
  | zero =>
      have bound := heading.length_le consistent
      obtain rfl : pending = [] := List.length_eq_zero_iff.mp (by omega)
      refine ⟨[], by rw [intervalsFrom, List.map_nil], List.prefix_rfl, ?_⟩
      rw [List.append_nil]
      exact heading.ended
  | succ fuel inductionHypothesis =>
      cases pending with
      | nil =>
          refine ⟨[], by rw [intervalsFrom, List.map_nil]; omega, List.prefix_rfl, ?_⟩
          rw [List.append_nil]
          exact heading.ended
      | cons head pending =>
          obtain ⟨rest, same, begins, all⟩ := inductionHypothesis (heading.next consistent) (by
            rw [List.length_append, List.length_singleton]
            omega)
          refine ⟨head :: rest, ?_, ?_, ?_⟩
          · rw [intervalsFrom, same, List.map_cons]
          · exact List.prefix_cons_inj head |>.mpr ((List.prefix_append _ _).trans begins)
          · rwa [List.append_assoc] at all

/-- The intervals of a graph are those of its headers. -/
theorem exists_headersOf (consistent : graph.Consistent) :
    ∃ heads, HeadersOf graph heads ∧ graph.intervals = heads.map (Interval.ofHead graph) := by
  obtain ⟨heads, same, ⟨later, rfl⟩, nodup, mem_iff⟩ :=
    heading_start.exists_heads consistent graph.size (by simp)
  exact ⟨[root] ++ later, ⟨nodup, mem_iff, rfl⟩, same⟩

end Digraph

end FlowRegions
