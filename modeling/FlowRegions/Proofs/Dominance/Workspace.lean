import FlowRegions.Dominance.Tree
import FlowRegions.Proofs.DisjointSet.Roots
import FlowRegions.Proofs.Dominance.Semidominators
import FlowRegions.Proofs.Traversal.Numbering

/-!
Contract: what the workspace of the dominator computation holds while vertices
are processed in decreasing preorder.

Vertices are named by their preorder numbers.  `Ready k` says that exactly the
numbers above `k` are processed:
- the set of a vertex is named by its first unprocessed ancestor;
- processed vertices have their semidominators, the others still their own
  numbers;
- a processed vertex waits at its semidominator as long as the child above it
  is unprocessed, and is settled afterwards.

Owns: `Workspace.Ready`, its step `Ready.process`, and the resolution pass.
-/

namespace FlowRegions.DominatorTree.Workspace

variable {α : Type} {graph : Digraph α} {direction : Direction} {numbering : Numbering}
  {semi : Nat → Nat} {k : Nat} {work : Workspace}

/-! ## The forest of processed vertices -/

/-- Exactly the numbers above `k` are joined to their parents. -/
structure Linked (graph : Digraph α) (numbering : Numbering) (k : Nat) (sets : DisjointSet) :
    Prop where
  forest : sets.Forest
  size_eq : sets.size = graph.size
  /-- A set is named by the first ancestor that is not processed. -/
  top : ∀ {j}, j < numbering.sequence.size → ∃ t,
    sets.root (numbering.vertexAt j) = numbering.vertexAt t ∧
      Ancestor numbering.parentNumber t j ∧ t ≤ k ∧
      ∀ y, Ancestor numbering.parentNumber y j → t < y → k < y

section

variable (numbers : numbering.Numbers graph direction)
include numbers

theorem linked_singletons (all : numbering.sequence.size ≤ k + 1) :
    Linked graph numbering k (DisjointSet.singletons graph.size) where
  forest := DisjointSet.forest_singletons graph.size
  size_eq := by simp [DisjointSet.singletons, DisjointSet.size]
  top := by
    intro j within
    refine ⟨j, DisjointSet.root_singletons _ _, .self j, by omega, fun y ancestor later => ?_⟩
    have := numbers.tree.ancestor_le ancestor within
    omega

omit numbers in
theorem Linked.compress {sets : DisjointSet} (linked : Linked graph numbering k sets) (v : Nat) :
    Linked graph numbering k (sets.compress v) where
  forest := linked.forest.compress v
  size_eq := by rw [DisjointSet.size_compress, linked.size_eq]
  top := by
    intro j within
    rw [linked.forest.root_compress]
    exact linked.top within

/-- An unprocessed vertex names its own set. -/
theorem Linked.root_of_le {sets : DisjointSet} (linked : Linked graph numbering k sets) {j : Nat}
    (within : j < numbering.sequence.size) (unprocessed : j ≤ k) :
    sets.root (numbering.vertexAt j) = numbering.vertexAt j := by
  obtain ⟨t, root, ancestor, _, first⟩ := linked.top within
  have := numbers.tree.ancestor_le ancestor within
  have : ¬ t < j := fun later => by
    have := first j (.self j) later
    omega
  rwa [show t = j by omega] at root

/-- Joining the next vertex to its parent. -/
theorem Linked.link {sets : DisjointSet} (linked : Linked graph numbering (k + 1) sets)
    (within : k + 1 < numbering.sequence.size) :
    Linked graph numbering k
      (sets.link (numbering.vertexAt (k + 1))
        (numbering.parentOf (numbering.vertexAt (k + 1)))) := by
  have parentBelow : numbering.parentNumber (k + 1) < k + 1 :=
    numbers.tree.parent_lt (Nat.succ_pos k) within
  rw [← numbers.vertexAt_parentNumber within]
  have vertexWithin := numbers.vertexAt_lt within
  have parentWithin := numbers.vertexAt_lt
    (show numbering.parentNumber (k + 1) < numbering.sequence.size by omega)
  rw [← linked.size_eq] at vertexWithin parentWithin
  obtain ⟨forest, roots⟩ := linked.forest.link vertexWithin parentWithin
  refine ⟨forest, by rw [DisjointSet.size_link, linked.size_eq], ?_⟩
  intro j jWithin
  obtain ⟨t, root, ancestor, unprocessed, first⟩ := linked.top jWithin
  have tWithin : t < numbering.sequence.size := by
    have := numbers.tree.ancestor_le ancestor jWithin
    omega
  rw [roots, root, linked.root_of_le numbers within (Nat.le_refl _),
    linked.root_of_le numbers (j := numbering.parentNumber (k + 1)) (by omega) (by omega)]
  by_cases moved : t = k + 1
  · subst moved
    rw [if_pos rfl]
    refine ⟨numbering.parentNumber (k + 1), rfl,
      (Ancestor.above (Nat.succ_pos k) (.self _)).trans ancestor, by omega, ?_⟩
    intro y yAncestor later
    have := numbers.tree.le_of_ancestor_of_parent_lt ancestor yAncestor jWithin later
    omega
  · have different : numbering.vertexAt t ≠ numbering.vertexAt (k + 1) :=
      fun same => moved (numbers.vertexAt_injective tWithin within same)
    rw [if_neg different]
    refine ⟨t, rfl, ancestor, by omega, ?_⟩
    intro y yAncestor later
    have := first y yAncestor later
    omega

/-! ## The least semidominator on a path -/

/-- The walk up a path finds a vertex of least semidominator among those it
passes and the one it started with. -/
theorem leastBelow_spec (work : Workspace) (fuel best : Nat) {t i : Nat}
    (ancestor : Ancestor numbering.parentNumber t i) (within : i < numbering.sequence.size)
    (enough : i - t ≤ fuel) :
    let least := work.leastBelow numbering (numbering.vertexAt t) fuel (numbering.vertexAt i) best
    (least = best ∨ ∃ b, least = numbering.vertexAt b ∧
        Ancestor numbering.parentNumber b i ∧ t < b) ∧
      work.semiOf least ≤ work.semiOf best ∧
      ∀ y, Ancestor numbering.parentNumber y i → t < y →
        work.semiOf least ≤ work.semiOf (numbering.vertexAt y) := by
  induction fuel generalizing i best with
  | zero =>
      have := numbers.tree.ancestor_le ancestor within
      refine ⟨.inl rfl, Nat.le_refl _, fun y yAncestor later => ?_⟩
      have := numbers.tree.ancestor_le yAncestor within
      omega
  | succ fuel inductionHypothesis =>
      rw [leastBelow]
      by_cases arrived : numbering.vertexAt i = numbering.vertexAt t
      · rw [if_pos arrived]
        refine ⟨.inl rfl, Nat.le_refl _, fun y yAncestor later => ?_⟩
        have := numbers.tree.ancestor_le ancestor within
        have := numbers.vertexAt_injective within (by omega) arrived
        have := numbers.tree.ancestor_le yAncestor within
        omega
      · rw [if_neg arrived]
        have different : t ≠ i := by
          rintro rfl
          exact arrived rfl
        obtain ⟨positive, above⟩ := ancestor.of_ne different
        have falls := numbers.tree.parent_lt positive within
        rw [← numbers.vertexAt_parentNumber within]
        have rest := inductionHypothesis
          (if work.semiOf (numbering.vertexAt i) < work.semiOf best
            then numbering.vertexAt i else best) above (by omega) (by omega)
        dsimp only at rest ⊢
        revert rest
        generalize work.leastBelow numbering _ fuel _ _ = least
        rintro ⟨origin, noWorse, minimal⟩
        have belowI := numbers.tree.ancestor_le ancestor within
        have bound : work.semiOf least ≤ work.semiOf best ∧
            work.semiOf least ≤ work.semiOf (numbering.vertexAt i) := by
          split at noWorse <;> omega
        refine ⟨?_, bound.1, ?_⟩
        · rcases origin with same | ⟨b, isAt, bAncestor, later⟩
          · split at same
            · exact .inr ⟨i, same, .self i, by omega⟩
            · exact .inl same
          · exact .inr ⟨b, isAt, .above positive bAncestor, later⟩
        · intro y yAncestor later
          by_cases self : y = i
          · rw [self]
            exact bound.2
          · exact minimal y (yAncestor.of_ne self).2 later

/-- What evaluating a vertex gives: itself while it is unprocessed, afterwards a
processed ancestor of least semidominator. -/
theorem evaluate_spec (linked : Linked graph numbering k work.sets) {j : Nat}
    (within : j < numbering.sequence.size) :
    (work.evaluate numbering (numbering.vertexAt j)).2 =
        { work with sets := work.sets.compress (numbering.vertexAt j) } ∧
      (j ≤ k → (work.evaluate numbering (numbering.vertexAt j)).1 = numbering.vertexAt j) ∧
      (k < j → ∃ b, (work.evaluate numbering (numbering.vertexAt j)).1 = numbering.vertexAt b ∧
        Ancestor numbering.parentNumber b j ∧ k < b ∧
        ∀ y, Ancestor numbering.parentNumber y j → k < y →
          work.semiOf (numbering.vertexAt b) ≤ work.semiOf (numbering.vertexAt y)) := by
  refine ⟨?_, ?_, ?_⟩
  · unfold evaluate
    dsimp only
    split <;> rfl
  · intro unprocessed
    unfold evaluate
    dsimp only
    rw [if_pos (linked.root_of_le numbers within unprocessed)]
  · intro processed
    obtain ⟨t, root, ancestor, unprocessed, first⟩ := linked.top within
    have different : numbering.vertexAt t ≠ numbering.vertexAt j := by
      intro same
      have := numbers.vertexAt_injective (by omega) within same
      omega
    obtain ⟨positive, above⟩ := ancestor.of_ne (by omega)
    have falls := numbers.tree.parent_lt positive within
    unfold evaluate
    dsimp only
    rw [root, if_neg different, ← numbers.vertexAt_parentNumber within]
    have spec := leastBelow_spec numbers
      { work with sets := work.sets.compress (numbering.vertexAt j) }
      numbering.sequence.size (numbering.vertexAt j) above (by omega) (by omega)
    dsimp only at spec
    revert spec
    generalize leastBelow _ numbering _ _ _ _ = least
    rintro ⟨origin, noWorse, minimal⟩
    have minimal' (y : Nat) (yAncestor : Ancestor numbering.parentNumber y j) (later : k < y) :
        work.semiOf least ≤ work.semiOf (numbering.vertexAt y) := by
      by_cases self : y = j
      · rw [self]
        exact noWorse
      · exact minimal y (yAncestor.of_ne self).2 (by omega)
    rcases origin with same | ⟨b, isAt, bAncestor, later⟩
    · exact ⟨j, same, .self j, processed, same ▸ minimal'⟩
    · have bAbove : Ancestor numbering.parentNumber b j := .above positive bAncestor
      exact ⟨b, isAt, bAbove, first b bAbove later, isAt ▸ minimal'⟩

/-! ## Lowering a semidominator -/

/-- The numbers above `k` have their semidominators, `k` has `current`, the
others still themselves. -/
structure Semis (graph : Digraph α) (numbering : Numbering) (semi : Nat → Nat) (k current : Nat)
    (work : Workspace) : Prop where
  size_eq : work.semi.size = graph.size
  processed : ∀ {j}, k < j → j < numbering.sequence.size →
    work.semiOf (numbering.vertexAt j) = semi j
  here : k < numbering.sequence.size → work.semiOf (numbering.vertexAt k) = current
  ahead : ∀ {j}, j < k → j < numbering.sequence.size →
    work.semiOf (numbering.vertexAt j) = j

def Offers (numbering : Numbering) (semi : Nat → Nat) (k i x : Nat) : Prop :=
  (i ≤ k ∧ x = i) ∨ ∃ u, Ancestor numbering.parentNumber u i ∧ k < u ∧ x = semi u

omit numbers in
theorem semiOf_setIfInBounds (work : Workspace) (v x w : Nat) :
    semiOf { work with semi := work.semi.setIfInBounds v x } w =
      if v = w ∧ v < work.semi.size then x else work.semiOf w := by
  simp only [semiOf, Array.getD_eq_getD_getElem?, Array.getElem?_setIfInBounds]
  by_cases same : v = w
  · subst same
    by_cases within : v < work.semi.size <;> simp [within]
  · simp [same]

/-- The entry of `k` may be written while its neighbours are looked at. -/
theorem Semis.write {current : Nat} (semis : Semis graph numbering semi k current work)
    (below : k < numbering.sequence.size) (x : Nat) :
    Semis graph numbering semi k x
      { work with semi := work.semi.setIfInBounds (numbering.vertexAt k) x } := by
  have kept {j : Nat} (within : j < numbering.sequence.size) (other : j ≠ k) :
      semiOf { work with semi := work.semi.setIfInBounds (numbering.vertexAt k) x }
        (numbering.vertexAt j) = work.semiOf (numbering.vertexAt j) := by
    rw [semiOf_setIfInBounds, if_neg]
    exact fun both => other (numbers.vertexAt_injective within below both.1.symm)
  refine
    { size_eq := by rw [Array.size_setIfInBounds, semis.size_eq]
      processed := fun later within => ?_
      here := fun _ => ?_
      ahead := fun earlier within => ?_ }
  · rw [kept within (by omega)]
    exact semis.processed later within
  · have inBounds := numbers.vertexAt_lt below
    rw [← semis.size_eq] at inBounds
    rw [semiOf_setIfInBounds, if_pos ⟨rfl, inBounds⟩]
  · rw [kept within (by omega)]
    exact semis.ahead earlier within

/-- Evaluating a neighbour finds the least of what it offers. -/
theorem semiOf_evaluate {current : Nat} (linked : Linked graph numbering k work.sets)
    (semis : Semis graph numbering semi k current work) {i : Nat}
    (within : i < numbering.sequence.size) :
    let found := work.semiOf (work.evaluate numbering (numbering.vertexAt i)).1
    (found = current ∨ Offers numbering semi k i found) ∧
      ∀ x, Offers numbering semi k i x → x ≠ k → found ≤ x := by
  obtain ⟨_, unprocessed, processed⟩ := evaluate_spec numbers linked within
  dsimp only
  rcases Nat.lt_or_ge k i with later | early
  · obtain ⟨b, isAt, ancestor, high, minimal⟩ := processed later
    have := numbers.tree.ancestor_le ancestor within
    rw [isAt, semis.processed high (by omega)]
    refine ⟨.inr (.inr ⟨b, ancestor, high, rfl⟩), ?_⟩
    rintro x (⟨early, _⟩ | ⟨y, yAncestor, yHigh, rfl⟩) notSelf
    · omega
    · have := numbers.tree.ancestor_le yAncestor within
      have bound := minimal y yAncestor yHigh
      rwa [semis.processed high (by omega), semis.processed yHigh (by omega)] at bound
  · rw [unprocessed early]
    rcases Nat.lt_or_eq_of_le early with earlier | rfl
    · rw [semis.ahead earlier within]
      refine ⟨.inr (.inl ⟨early, rfl⟩), ?_⟩
      rintro x (⟨_, rfl⟩ | ⟨y, yAncestor, yHigh, _⟩) notSelf
      · exact Nat.le_refl _
      · have := numbers.tree.ancestor_le yAncestor within
        omega
    · refine ⟨.inl (semis.here within), ?_⟩
      rintro x (⟨_, same⟩ | ⟨y, yAncestor, yHigh, _⟩) notSelf
      · exact absurd same notSelf
      · have := numbers.tree.ancestor_le yAncestor within
        omega

/-- One neighbour lowers the semidominator to the least of what it offers. -/
theorem lower_spec {current : Nat} (linked : Linked graph numbering k work.sets)
    (semis : Semis graph numbering semi k current work) (below : k < numbering.sequence.size)
    (v : Nat) :
    ∃ lowered, Linked graph numbering k (lower numbering (numbering.vertexAt k) work v).sets ∧
      Semis graph numbering semi k lowered (lower numbering (numbering.vertexAt k) work v) ∧
      (lower numbering (numbering.vertexAt k) work v).bucket = work.bucket ∧
      (lower numbering (numbering.vertexAt k) work v).idom = work.idom ∧
      lowered ≤ current ∧
      (lowered = current ∨ ∃ i, numbering.order? v = some i ∧ Offers numbering semi k i lowered) ∧
      ∀ i x, numbering.order? v = some i → Offers numbering semi k i x → x ≠ k → lowered ≤ x := by
  unfold lower
  cases numbered : numbering.order? v with
  | none => exact ⟨current, linked, semis, rfl, rfl, Nat.le_refl _, .inl rfl, by simp⟩
  | some i =>
      obtain ⟨within, isAt⟩ := numbers.vertexAt_of_order? numbered
      rw [← isAt]
      obtain ⟨compressed, _, _⟩ := evaluate_spec numbers linked within
      obtain ⟨origin, least⟩ := semiOf_evaluate numbers linked semis within
      revert compressed origin least
      generalize work.evaluate numbering (numbering.vertexAt i) = outcome
      obtain ⟨u, after⟩ := outcome
      dsimp only
      rintro rfl origin least
      have here : semiOf { work with sets := work.sets.compress (numbering.vertexAt i) }
          (numbering.vertexAt k) = current := semis.here below
      have found : semiOf { work with sets := work.sets.compress (numbering.vertexAt i) } u =
          work.semiOf u := rfl
      have written := semis.write numbers below (min current (work.semiOf u))
      rw [here, found]
      refine ⟨min current (work.semiOf u), linked.compress _,
        ⟨written.size_eq, written.processed, written.here, written.ahead⟩, rfl, rfl,
        Nat.min_le_left _ _, ?_, ?_⟩
      · rcases Nat.le_total current (work.semiOf u) with low | high
        · exact .inl (Nat.min_eq_left low)
        · rw [Nat.min_eq_right high]
          exact origin.imp_right fun offers => ⟨i, rfl, offers⟩
      · rintro i' x same offer notSelf
        obtain rfl : i = i' := Option.some.inj same
        exact Nat.le_trans (Nat.min_le_right _ _) (least x offer notSelf)

/-- All neighbours of a list lower the semidominator to the least of what they
offer. -/
theorem foldl_lower_spec (neighbours : List Nat) {current : Nat}
    (linked : Linked graph numbering k work.sets)
    (semis : Semis graph numbering semi k current work) (below : k < numbering.sequence.size) :
    let after := neighbours.foldl (lower numbering (numbering.vertexAt k)) work
    ∃ lowered, Linked graph numbering k after.sets ∧
      Semis graph numbering semi k lowered after ∧
      after.bucket = work.bucket ∧ after.idom = work.idom ∧ lowered ≤ current ∧
      (lowered = current ∨ ∃ v ∈ neighbours, ∃ i, numbering.order? v = some i ∧
        Offers numbering semi k i lowered) ∧
      ∀ v ∈ neighbours, ∀ i x, numbering.order? v = some i → Offers numbering semi k i x →
        x ≠ k → lowered ≤ x := by
  induction neighbours generalizing work current with
  | nil => exact ⟨current, linked, semis, rfl, rfl, Nat.le_refl _, .inl rfl, by simp⟩
  | cons v rest inductionHypothesis =>
      obtain ⟨first, linked', semis', sameBucket, sameIdom, notAbove, origin, least⟩ :=
        lower_spec numbers linked semis below v
      obtain ⟨last, linked'', semis'', sameBucket', sameIdom', notAbove', origin', least'⟩ :=
        inductionHypothesis linked' semis'
      refine ⟨last, linked'', semis'', sameBucket'.trans sameBucket,
        sameIdom'.trans sameIdom, Nat.le_trans notAbove' notAbove, ?_, ?_⟩
      · rcases origin' with same | ⟨v', member, offered⟩
        · rw [same]
          rcases origin with unchanged | offered
          · exact .inl unchanged
          · exact .inr ⟨v, List.mem_cons_self, offered⟩
        · exact .inr ⟨v', List.mem_cons_of_mem _ member, offered⟩
      · intro v' member i x numbered offer notSelf
        rcases List.mem_cons.mp member with rfl | later
        · exact Nat.le_trans notAbove' (least i x numbered offer notSelf)
        · exact least' v' later i x numbered offer notSelf

/-- The neighbours of a vertex lower its semidominator to the true one. -/
theorem lowered_eq_semi (consistent : graph.Consistent)
    (known : ∀ u, 0 < u → u < numbering.sequence.size →
      IsSemidominator (numbering.Edge graph direction) u (semi u))
    (positive : 0 < k) (below : k < numbering.sequence.size) {lowered : Nat}
    (origin : lowered = k ∨ ∃ v ∈ graph.neighbours direction.reverse (numbering.vertexAt k),
      ∃ i, numbering.order? v = some i ∧ Offers numbering semi k i lowered)
    (least : ∀ v ∈ graph.neighbours direction.reverse (numbering.vertexAt k), ∀ i x,
      numbering.order? v = some i → Offers numbering semi k i x → x ≠ k → lowered ≤ x) :
    lowered = semi k := by
  have edge_iff {i : Nat} (within : i < numbering.sequence.size) :
      numbering.Edge graph direction i k ↔
        numbering.vertexAt i ∈ graph.neighbours direction.reverse (numbering.vertexAt k) := by
    rw [consistent.mem_neighbours_reverse]
    exact ⟨fun step => step.2.2, fun member => ⟨within, below, member⟩⟩
  have bound {i x : Nat} (step : numbering.Edge graph direction i k)
      (offer : Offers numbering semi k i x) (notSelf : x ≠ k) : lowered ≤ x :=
    least _ ((edge_iff step.1).mp step) i x (numbers.order?_vertexAt step.1) offer notSelf
  have parentBelow := numbers.tree.parent_lt positive below
  have small : lowered ≤ numbering.parentNumber k :=
    bound (numbers.tree.parent_edge positive below) (.inl ⟨by omega, rfl⟩) (by omega)
  refine IsSemidominator.unique (numbers.tree.isSemidominator_of_edges
    (fun u later within => known u (by omega) within) positive ?_ ?_ ?_) (known k positive below)
  · rcases origin with same | ⟨v, member, i, numbered, offer⟩
    · omega
    · obtain ⟨within, rfl⟩ := numbers.vertexAt_of_order? numbered
      exact ⟨i, (edge_iff within).mpr member, offer⟩
  · intro i step early
    by_cases self : i = k
    · omega
    · exact bound step (.inl ⟨early, rfl⟩) self
  · intro i u step ancestor later
    by_cases self : semi u = k
    · omega
    · exact bound step (.inr ⟨u, ancestor, later, rfl⟩) self

/-! ## Settling what waits -/

/-- `u` tells the immediate dominator of `j`: it is the semidominator of `j` and
the immediate dominator itself, or a vertex above `j` that has the same one. -/
def Tells (numbering : Numbering) (semi : Nat → Nat) (j u : Nat) : Prop :=
  (u = semi j ∧ ∀ y, Ancestor numbering.parentNumber y j → semi j < y → semi j ≤ semi y) ∨
    (Ancestor numbering.parentNumber u j ∧ semi j < u ∧ semi u < semi j ∧
      ∀ y, Ancestor numbering.parentNumber y j → semi j < y → semi u ≤ semi y)

def Settled (numbering : Numbering) (semi : Nat → Nat) (idom : Array (Option Nat)) (j : Nat) :
    Prop :=
  ∃ u, (idom[numbering.vertexAt j]?).join = some (numbering.vertexAt u) ∧
    Tells numbering semi j u

def Confined (numbering : Numbering) (idom : Array (Option Nat)) : Prop :=
  ∀ x, numbering.order? x = none → (idom[x]?).join = none

omit numbers in
theorem join_setIfInBounds {ν : Type} (entries : Array (Option ν)) (v x : Nat) (value : Option ν) :
    ((entries.setIfInBounds v value)[x]?).join =
      if v = x ∧ v < entries.size then value else (entries[x]?).join := by
  rw [Array.getElem?_setIfInBounds]
  by_cases same : v = x
  · subst same
    by_cases within : v < entries.size <;> simp [within]
  · simp [same]

/-- Writing what tells the immediate dominator of `j` settles `j` and leaves the
others settled. -/
theorem settled_write {idom : Array (Option Nat)} (idomSize : idom.size = graph.size) {j u : Nat}
    (within : j < numbering.sequence.size) (tells : Tells numbering semi j u) {i : Nat}
    (iWithin : i < numbering.sequence.size) (before : i = j ∨ Settled numbering semi idom i) :
    Settled numbering semi
      (idom.setIfInBounds (numbering.vertexAt j) (some (numbering.vertexAt u))) i := by
  have inBounds := numbers.vertexAt_lt within
  rw [← idomSize] at inBounds
  by_cases same : i = j
  · subst same
    exact ⟨u, by rw [join_setIfInBounds, if_pos ⟨rfl, inBounds⟩], tells⟩
  · obtain ⟨u', entry, tells'⟩ := before.resolve_left same
    refine ⟨u', ?_, tells'⟩
    rw [join_setIfInBounds, if_neg, entry]
    exact fun both => same (numbers.vertexAt_injective iWithin within both.1.symm)

theorem Confined.write {idom : Array (Option Nat)} (confined : Confined numbering idom) {j : Nat}
    (within : j < numbering.sequence.size) (value : Option Nat) :
    Confined numbering (idom.setIfInBounds (numbering.vertexAt j) value) := by
  intro x unmet
  rw [join_setIfInBounds, if_neg, confined x unmet]
  rintro ⟨rfl, _⟩
  rw [numbers.order?_vertexAt within] at unmet
  cases unmet

/-- When the semidominator of `j` is the parent of the vertex just processed,
the processed ancestors of `j` are exactly those behind its semidominator:
evaluating `j` finds one of least semidominator among them. -/
theorem evaluate_behind {current : Nat} (linked : Linked graph numbering k work.sets)
    (semis : Semis graph numbering semi k current work) {j : Nat}
    (within : j < numbering.sequence.size) (below : Ancestor numbering.parentNumber (k + 1) j)
    (home : semi j = numbering.parentNumber (k + 1)) :
    ∃ b, (work.evaluate numbering (numbering.vertexAt j)).1 = numbering.vertexAt b ∧
      work.semiOf (numbering.vertexAt b) = semi b ∧ Ancestor numbering.parentNumber b j ∧
      semi j < b ∧
      ∀ y, Ancestor numbering.parentNumber y j → semi j < y → semi b ≤ semi y := by
  have later := numbers.tree.ancestor_le below within
  have parentBelow : numbering.parentNumber (k + 1) < k + 1 :=
    numbers.tree.parent_lt (Nat.succ_pos k) (by omega)
  obtain ⟨_, _, processed⟩ := evaluate_spec numbers linked within
  obtain ⟨b, found, ancestor, high, minimal⟩ := processed (by omega)
  have bWithin := numbers.tree.ancestor_le ancestor within
  refine ⟨b, found, semis.processed high (by omega), ancestor, by omega, ?_⟩
  intro y yAncestor behind
  have yWithin := numbers.tree.ancestor_le yAncestor within
  have yHigh := numbers.tree.le_of_ancestor_of_parent_lt below yAncestor within (by omega)
  have bound := minimal y yAncestor (by omega)
  rwa [semis.processed high (by omega), semis.processed (by omega) (by omega)] at bound

omit numbers in
/-- The least semidominator behind that of `j` decides what tells its immediate
dominator. -/
theorem tells_of_least {j b : Nat} (ancestor : Ancestor numbering.parentNumber b j)
    (behind : semi j < b)
    (least : ∀ y, Ancestor numbering.parentNumber y j → semi j < y → semi b ≤ semi y) :
    Tells numbering semi j (if semi b < semi j then b else semi j) := by
  by_cases smaller : semi b < semi j
  · rw [if_pos smaller]
    exact .inr ⟨ancestor, behind, smaller, least⟩
  · rw [if_neg smaller]
    exact .inl ⟨rfl, fun y yAncestor yBehind =>
      Nat.le_trans (Nat.not_lt.mp smaller) (least y yAncestor yBehind)⟩

/-- A descendant of the vertex just processed, whose semidominator is the parent
of that, is settled. -/
theorem settle_spec {current : Nat} (linked : Linked graph numbering k work.sets)
    (semis : Semis graph numbering semi k current work)
    (idomSize : work.idom.size = graph.size) {j : Nat} (within : j < numbering.sequence.size)
    (below : Ancestor numbering.parentNumber (k + 1) j)
    (home : semi j = numbering.parentNumber (k + 1)) :
    let after := settle numbering (numbering.vertexAt (numbering.parentNumber (k + 1))) work
      (numbering.vertexAt j)
    Linked graph numbering k after.sets ∧ Semis graph numbering semi k current after ∧
      after.idom.size = graph.size ∧
      Settled numbering semi after.idom j ∧
      (∀ i, i < numbering.sequence.size → Settled numbering semi work.idom i →
        Settled numbering semi after.idom i) ∧
      (Confined numbering work.idom → Confined numbering after.idom) := by
  have later := numbers.tree.ancestor_le below within
  obtain ⟨compressed, _, _⟩ := evaluate_spec numbers linked within
  obtain ⟨b, found, semiB, ancestor, behind, least⟩ :=
    evaluate_behind numbers linked semis within below home
  have semiJ : work.semiOf (numbering.vertexAt j) = semi j :=
    semis.processed (by omega) within
  unfold settle
  revert compressed found
  generalize work.evaluate numbering (numbering.vertexAt j) = outcome
  obtain ⟨u, after⟩ := outcome
  dsimp only
  rintro rfl rfl
  have isEntry : (if semiOf { work with sets := work.sets.compress (numbering.vertexAt j) }
        (numbering.vertexAt b) <
          semiOf { work with sets := work.sets.compress (numbering.vertexAt j) }
            (numbering.vertexAt j)
      then numbering.vertexAt b else numbering.vertexAt (numbering.parentNumber (k + 1))) =
      numbering.vertexAt (if semi b < semi j then b else semi j) := by
    rw [apply_ite numbering.vertexAt, ← home, ← semiB, ← semiJ]
    rfl
  rw [isEntry]
  have tells := tells_of_least ancestor behind least
  exact ⟨linked.compress _, ⟨semis.size_eq, semis.processed, semis.here, semis.ahead⟩,
    by rw [Array.size_setIfInBounds, idomSize],
    settled_write numbers idomSize within tells within (.inl rfl),
    fun i iWithin before => settled_write numbers idomSize within tells iWithin (.inr before),
    fun confined => confined.write numbers within _⟩

/-- Everything on a list of such descendants is settled. -/
theorem foldl_settle_spec (waiting : List Nat) {current : Nat}
    (linked : Linked graph numbering k work.sets)
    (semis : Semis graph numbering semi k current work)
    (idomSize : work.idom.size = graph.size)
    (members : ∀ x ∈ waiting, ∃ j, x = numbering.vertexAt j ∧ j < numbering.sequence.size ∧
      Ancestor numbering.parentNumber (k + 1) j ∧ semi j = numbering.parentNumber (k + 1)) :
    let after := waiting.foldl
      (settle numbering (numbering.vertexAt (numbering.parentNumber (k + 1)))) work
    Linked graph numbering k after.sets ∧ Semis graph numbering semi k current after ∧
      after.idom.size = graph.size ∧
      (∀ j, j < numbering.sequence.size → numbering.vertexAt j ∈ waiting →
        Settled numbering semi after.idom j) ∧
      (∀ i, i < numbering.sequence.size → Settled numbering semi work.idom i →
        Settled numbering semi after.idom i) ∧
      (Confined numbering work.idom → Confined numbering after.idom) := by
  induction waiting generalizing work with
  | nil => exact ⟨linked, semis, idomSize, by simp, fun _ _ settled => settled, id⟩
  | cons x rest inductionHypothesis =>
      obtain ⟨j, rfl, within, below, home⟩ := members x List.mem_cons_self
      obtain ⟨linked', semis', idomSize', now, kept, confined⟩ :=
        settle_spec numbers linked semis idomSize within below home
      obtain ⟨linked'', semis'', idomSize'', now', kept', confined'⟩ :=
        inductionHypothesis linked' semis' idomSize' fun x later =>
          members x (List.mem_cons_of_mem _ later)
      refine ⟨linked'', semis'', idomSize'', ?_, ?_, ?_⟩
      · intro i iWithin member
        rcases List.mem_cons.mp member with same | later
        · obtain rfl : i = j := numbers.vertexAt_injective iWithin within same
          exact kept' i iWithin now
        · exact now' i iWithin later
      · exact fun i iWithin settled => kept' i iWithin (kept i iWithin settled)
      · exact fun before => confined' (confined before)

/-! ## Processing -/

/-- Exactly the numbers above `k` are processed. -/
structure Ready (graph : Digraph α) (numbering : Numbering) (semi : Nat → Nat) (k : Nat)
    (work : Workspace) : Prop where
  linked : Linked graph numbering k work.sets
  semis : Semis graph numbering semi k k work
  bucketSize : work.bucket.size = graph.size
  idomSize : work.idom.size = graph.size
  /-- What waits at a vertex is below a child of that vertex which is not yet
  processed. -/
  waits : ∀ {s x}, s < numbering.sequence.size → x ∈ work.waitingAt (numbering.vertexAt s) →
    ∃ j, x = numbering.vertexAt j ∧ k < j ∧ j < numbering.sequence.size ∧ semi j = s ∧
      ∃ c, 0 < c ∧ c ≤ k ∧ numbering.parentNumber c = s ∧ Ancestor numbering.parentNumber c j
  settled : ∀ {j}, k < j → j < numbering.sequence.size →
    numbering.vertexAt j ∈ work.waitingAt (numbering.vertexAt (semi j)) ∨
      Settled numbering semi work.idom j
  confined : Confined numbering work.idom

theorem ready_start (all : numbering.sequence.size = k + 1) :
    Ready graph numbering semi k (start graph.size numbering) where
  linked := linked_singletons numbers (by omega)
  semis := by
    have own {j : Nat} (within : j < numbering.sequence.size) :
        semiOf (start graph.size numbering) (numbering.vertexAt j) = j := by
      have numbered := numbers.order?_vertexAt within
      have inBounds := numbers.vertexAt_lt within
      rw [← numbers.order_size] at inBounds
      rw [Numbering.order?, Array.getElem?_eq_getElem inBounds, Option.join_some] at numbered
      simp only [semiOf, start, Array.getD_eq_getD_getElem?, Array.getElem?_map,
        Array.getElem?_eq_getElem inBounds, numbered, Option.map_some, Option.getD_some]
    exact
      { size_eq := by rw [start, Array.size_map, numbers.order_size]
        processed := fun later within => by omega
        here := own
        ahead := fun _ => own }
  bucketSize := by simp [start]
  idomSize := by simp [start]
  waits := by
    intro s x within waiting
    have inBounds := numbers.vertexAt_lt within
    simp [waitingAt, start, inBounds] at waiting
  settled := fun later within => by omega
  confined := by
    intro x _
    by_cases inBounds : x < graph.size <;> simp [start, inBounds]

def enlist (numbering : Numbering) (work : Workspace) (w : Nat) : Workspace :=
  { work with
    sets := work.sets.link w (numbering.parentOf w)
    bucket := work.bucket.modify (numbering.vertexAt (work.semiOf w)) (· ++ [w]) }

def drain (numbering : Numbering) (parent : Nat) (work : Workspace) : Workspace :=
  let settled := (work.waitingAt parent).foldl (settle numbering parent) work
  { settled with bucket := settled.bucket.setIfInBounds parent [] }

omit numbers in
theorem process_eq (work : Workspace) (w : Nat) :
    work.process graph direction numbering w =
      drain numbering (numbering.parentOf w) (enlist numbering
        ((graph.neighbours direction.reverse w).foldl (lower numbering w) work) w) :=
  rfl

omit numbers in
theorem waitingAt_enlist (work : Workspace) (w v : Nat)
    (within : numbering.vertexAt (work.semiOf w) < work.bucket.size) :
    (enlist numbering work w).waitingAt v =
      if v = numbering.vertexAt (work.semiOf w) then work.waitingAt v ++ [w]
      else work.waitingAt v := by
  simp only [waitingAt, enlist, Array.getD_eq_getD_getElem?, Array.getElem?_modify]
  by_cases home : v = numbering.vertexAt (work.semiOf w)
  · rw [if_pos home.symm, if_pos home, home, Array.getElem?_eq_getElem within]
    rfl
  · rw [if_neg (fun same => home same.symm), if_neg home]

/-- The next vertex is joined and waits; what waits at its parent is not yet
settled. -/
structure Enlisted (graph : Digraph α) (numbering : Numbering) (semi : Nat → Nat) (k : Nat)
    (work : Workspace) : Prop where
  linked : Linked graph numbering k work.sets
  semis : Semis graph numbering semi k k work
  bucketSize : work.bucket.size = graph.size
  idomSize : work.idom.size = graph.size
  waits : ∀ {s x}, s < numbering.sequence.size → x ∈ work.waitingAt (numbering.vertexAt s) →
    ∃ j, x = numbering.vertexAt j ∧ k < j ∧ j < numbering.sequence.size ∧ semi j = s ∧
      ∃ c, 0 < c ∧ c ≤ k + 1 ∧ numbering.parentNumber c = s ∧
        Ancestor numbering.parentNumber c j
  settled : ∀ {j}, k < j → j < numbering.sequence.size →
    numbering.vertexAt j ∈ work.waitingAt (numbering.vertexAt (semi j)) ∨
      Settled numbering semi work.idom j
  confined : Confined numbering work.idom

/-- A vertex waits below a child of its semidominator. -/
theorem exists_child_of_semidominator {j : Nat} (positive : 0 < j)
    (within : j < numbering.sequence.size)
    (known : IsSemidominator (numbering.Edge graph direction) j (semi j)) :
    ∃ c, 0 < c ∧ c ≤ j ∧ numbering.parentNumber c = semi j ∧
      Ancestor numbering.parentNumber c j := by
  have earlier := numbers.tree.semidominator_lt known positive within
  have ancestor := numbers.tree.semidominator_ancestor known positive within
  obtain ⟨c, cPositive, child, down⟩ := DepthFirst.exists_child ancestor (by omega)
  exact ⟨c, cPositive, numbers.tree.ancestor_le down within, child, down⟩

omit numbers in
/-- Once the semidominator of `k + 1` is found, the next number is `k`. -/
theorem Semis.next (semis : Semis graph numbering semi (k + 1) (semi (k + 1)) work) :
    Semis graph numbering semi k k work where
  size_eq := semis.size_eq
  processed := by
    intro j later within
    rcases Nat.lt_or_eq_of_le (Nat.succ_le_of_lt later) with behind | rfl
    · exact semis.processed behind within
    · exact semis.here within
  here := semis.ahead (Nat.lt_succ_self k)
  ahead := fun earlier => semis.ahead (Nat.lt_succ_of_lt earlier)

/-- Once the neighbours of the next vertex have lowered its semidominator, it is
joined and waits. -/
theorem Ready.enlist_lowered (ready : Ready graph numbering semi (k + 1) work)
    (within : k + 1 < numbering.sequence.size)
    (semiHere : IsSemidominator (numbering.Edge graph direction) (k + 1) (semi (k + 1)))
    {after : Workspace} (linked : Linked graph numbering (k + 1) after.sets)
    (semis : Semis graph numbering semi (k + 1) (semi (k + 1)) after)
    (sameBucket : after.bucket = work.bucket) (sameIdom : after.idom = work.idom) :
    Enlisted graph numbering semi k
      (Workspace.enlist numbering after (numbering.vertexAt (k + 1))) := by
  have semiWithin : semi (k + 1) < numbering.sequence.size :=
    Nat.lt_trans (numbers.tree.semidominator_lt semiHere (Nat.succ_pos k) within) within
  have home : after.semiOf (numbering.vertexAt (k + 1)) = semi (k + 1) := semis.here within
  have sameWaiting (v : Nat) : after.waitingAt v = work.waitingAt v := by
    rw [waitingAt, sameBucket]
    rfl
  have waiting (v : Nat) : (Workspace.enlist numbering after
      (numbering.vertexAt (k + 1))).waitingAt v =
      if v = numbering.vertexAt (semi (k + 1))
      then work.waitingAt v ++ [numbering.vertexAt (k + 1)] else work.waitingAt v := by
    rw [waitingAt_enlist, home, sameWaiting]
    rw [home, sameBucket, ready.bucketSize]
    exact numbers.vertexAt_lt semiWithin
  have next := semis.next
  refine
    { linked := linked.link numbers within
      semis := ⟨next.size_eq, next.processed, next.here, next.ahead⟩
      bucketSize := by
        show (after.bucket.modify _ _).size = _
        rw [Array.size_modify, sameBucket, ready.bucketSize]
      idomSize := by
        show after.idom.size = _
        rw [sameIdom, ready.idomSize]
      waits := ?_
      settled := ?_
      confined := by
        show Confined numbering after.idom
        rw [sameIdom]
        exact ready.confined }
  · intro s x sWithin member
    have old (waited : x ∈ work.waitingAt (numbering.vertexAt s)) :
        ∃ j, x = numbering.vertexAt j ∧ k < j ∧ j < numbering.sequence.size ∧ semi j = s ∧
          ∃ c, 0 < c ∧ c ≤ k + 1 ∧ numbering.parentNumber c = s ∧
            Ancestor numbering.parentNumber c j := by
      obtain ⟨j, isAt, later, rest⟩ := ready.waits sWithin waited
      exact ⟨j, isAt, by omega, rest⟩
    rw [waiting] at member
    split at member
    · rename_i atHome
      obtain rfl : s = semi (k + 1) := numbers.vertexAt_injective sWithin semiWithin atHome
      rcases List.mem_append.mp member with waited | new
      · exact old waited
      · exact ⟨k + 1, List.mem_singleton.mp new, Nat.lt_succ_self k, within, rfl,
          exists_child_of_semidominator numbers (Nat.succ_pos k) within semiHere⟩
    · exact old member
  · intro j later jWithin
    rw [waiting]
    by_cases next : j = k + 1
    · subst next
      rw [if_pos rfl]
      exact .inl (List.mem_append_right _ (List.mem_singleton_self _))
    · rcases ready.settled (by omega) jWithin with waited | settled
      · refine .inl ?_
        split
        · exact List.mem_append_left _ waited
        · exact waited
      · refine .inr ?_
        show Settled numbering semi after.idom j
        rwa [sameIdom]

/-- The neighbours of the next vertex find its semidominator; it is joined and
waits. -/
theorem Ready.enlist (consistent : graph.Consistent)
    (known : ∀ u, 0 < u → u < numbering.sequence.size →
      IsSemidominator (numbering.Edge graph direction) u (semi u))
    (ready : Ready graph numbering semi (k + 1) work)
    (within : k + 1 < numbering.sequence.size) :
    Enlisted graph numbering semi k (Workspace.enlist numbering
      ((graph.neighbours direction.reverse (numbering.vertexAt (k + 1))).foldl
        (lower numbering (numbering.vertexAt (k + 1))) work) (numbering.vertexAt (k + 1))) := by
  obtain ⟨lowered, linked, semis, sameBucket, sameIdom, -, origin, least⟩ :=
    foldl_lower_spec numbers (graph.neighbours direction.reverse (numbering.vertexAt (k + 1)))
      ready.linked ready.semis within
  rw [lowered_eq_semi numbers consistent known (Nat.succ_pos k) within origin least] at semis
  exact ready.enlist_lowered numbers within (known (k + 1) (Nat.succ_pos k) within) linked semis
    sameBucket sameIdom

/-- What waits at the parent of the vertex just joined is below that vertex:
subtrees are contiguous. -/
theorem Enlisted.below_of_waits (enlisted : Enlisted graph numbering semi k work)
    (within : k + 1 < numbering.sequence.size) {x : Nat}
    (waiting : x ∈ work.waitingAt (numbering.vertexAt (numbering.parentNumber (k + 1)))) :
    ∃ j, x = numbering.vertexAt j ∧ j < numbering.sequence.size ∧
      Ancestor numbering.parentNumber (k + 1) j ∧ semi j = numbering.parentNumber (k + 1) := by
  have parentBelow : numbering.parentNumber (k + 1) < k + 1 :=
    numbers.tree.parent_lt (Nat.succ_pos k) within
  obtain ⟨j, isAt, later, jWithin, home, c, positive, early, child, down⟩ :=
    enlisted.waits (by omega) waiting
  refine ⟨j, isAt, jWithin, ?_, home⟩
  have between := numbers.tree.ancestor_between down jWithin early (by omega)
  by_cases same : c = k + 1
  · exact same ▸ down
  · have above := (between.of_ne same).2
    have := numbers.tree.ancestor_le above (by omega)
    have := numbers.tree.parent_lt positive (by omega)
    omega

omit numbers in
theorem bucket_foldl_settle (parent : Nat) (waiting : List Nat) :
    (waiting.foldl (settle numbering parent) work).bucket = work.bucket := by
  induction waiting generalizing work with
  | nil => rfl
  | cons x rest inductionHypothesis =>
      rw [List.foldl_cons, inductionHypothesis]
      unfold settle evaluate
      dsimp only
      split <;> rfl

omit numbers in
/-- Nothing waits any more where everything was settled. -/
theorem waitingAt_drain (parent v : Nat) (inBounds : parent < work.bucket.size) :
    (drain numbering parent work).waitingAt v = if v = parent then [] else work.waitingAt v := by
  simp only [waitingAt, drain, bucket_foldl_settle, Array.getD_eq_getD_getElem?,
    Array.getElem?_setIfInBounds]
  by_cases home : v = parent
  · rw [if_pos home.symm, if_pos home, if_pos inBounds]
    rfl
  · rw [if_neg (fun same => home same.symm), if_neg home]

theorem Enlisted.drain (enlisted : Enlisted graph numbering semi k work)
    (within : k + 1 < numbering.sequence.size) :
    Ready graph numbering semi k
      (Workspace.drain numbering (numbering.vertexAt (numbering.parentNumber (k + 1))) work) := by
  have parentBelow : numbering.parentNumber (k + 1) < k + 1 :=
    numbers.tree.parent_lt (Nat.succ_pos k) within
  have inBounds : numbering.vertexAt (numbering.parentNumber (k + 1)) < work.bucket.size := by
    rw [enlisted.bucketSize]
    exact numbers.vertexAt_lt (by omega)
  obtain ⟨linked, semis, idomSize, now, kept, confined⟩ :=
    foldl_settle_spec numbers _ enlisted.linked enlisted.semis enlisted.idomSize
      fun x waiting => enlisted.below_of_waits numbers within waiting
  refine
    { linked := linked
      semis := ⟨semis.size_eq, semis.processed, semis.here, semis.ahead⟩
      bucketSize := by
        rw [Workspace.drain, Array.size_setIfInBounds, bucket_foldl_settle, enlisted.bucketSize]
      idomSize := idomSize
      waits := ?_
      settled := ?_
      confined := confined enlisted.confined }
  · intro s x sWithin member
    rw [waitingAt_drain _ _ inBounds] at member
    split at member
    · cases member
    · rename_i notParent
      obtain ⟨j, isAt, later, jWithin, home, c, positive, early, child, down⟩ :=
        enlisted.waits sWithin member
      have cNotNext : c ≠ k + 1 := by
        rintro rfl
        exact notParent (congrArg numbering.vertexAt child.symm)
      exact ⟨j, isAt, later, jWithin, home, c, positive, by omega, child, down⟩
  · intro j later jWithin
    rcases enlisted.settled later jWithin with waits | settled
    · rw [waitingAt_drain _ _ inBounds]
      by_cases home : numbering.vertexAt (semi j) =
          numbering.vertexAt (numbering.parentNumber (k + 1))
      · exact .inr (now j jWithin (home ▸ waits))
      · rw [if_neg home]
        exact .inl waits
    · exact .inr (kept j jWithin settled)

/-- Processing the next vertex. -/
theorem Ready.process (consistent : graph.Consistent)
    (known : ∀ u, 0 < u → u < numbering.sequence.size →
      IsSemidominator (numbering.Edge graph direction) u (semi u))
    (ready : Ready graph numbering semi (k + 1) work)
    (within : k + 1 < numbering.sequence.size) :
    Ready graph numbering semi k
      (work.process graph direction numbering (numbering.vertexAt (k + 1))) := by
  rw [process_eq, ← numbers.vertexAt_parentNumber within]
  exact (ready.enlist numbers consistent known within).drain numbers within

end

end FlowRegions.DominatorTree.Workspace
