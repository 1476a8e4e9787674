import FlowRegions.Proofs.Structuring.Reachability

/-!
Contract: every vertex that a run keeps stays in one place.

Copies left aside, a vertex is the leaf of one live region from the first step
on.  A collapse hands the leaves of its members to the new region, but for a
test that it folds; and what is folded stays tested by the region that takes it.

Owns:
- `RegionGraph.tally`, how often a vertex is a leaf, and how each effect changes
  it;
- `RegionGraph.Accounted`, where the vertices that a run keeps are found, with
  its step and run lemmas.
-/

namespace FlowRegions

open FlowRegions.Digraph (root terminator)

namespace RegionGraph

variable {config : Config} {labels : List Nat} {targets : Nat → List Nat} {kept : Nat → Prop}
  {graph changed : RegionGraph} {collapse : Collapse} {v new w : Nat}

/-! ## Conditions -/

/-- The condition of a branch tests leaves of the region, unless some node
carries it. -/
theorem WellFormed.mem_vertices_branchCond? (wellFormed : graph.WellFormed)
    (within : v < graph.size) {cond : Cond} (isCond : graph.branchCond? v = some cond)
    (member : w ∈ cond.vertices) :
    w ∈ graph.leaves v ∨ ∃ i node, graph.table i = some node ∧ w ∈ node.tested := by
  induction v using Nat.strongRecOn with
  | ind v inductionHypothesis =>
      rw [wellFormed.branchCond?_unfold within] at isCond
      cases found : graph.table v with
      | none =>
          rw [found] at isCond
          cases isCond
      | some node =>
          rw [found] at isCond
          -- What holds of the part where the branch is looked for holds of the region.
          have ofPart {r : Nat} (isChild : r ∈ node.children)
              (isCond : graph.branchCond? r = some cond) :
              w ∈ graph.leaves v ∨ ∃ i node, graph.table i = some node ∧ w ∈ node.tested := by
            have below := wellFormed.nested.below found r
              (Node.mem_references_of_mem_children isChild)
            rcases inductionHypothesis r below (Nat.lt_trans below within) isCond with
              isLeaf | carried
            · exact .inl ((wellFormed.mem_leaves found).mpr (.inr ⟨r, isChild, isLeaf⟩))
            · exact .inr carried
          have carried {shape : Shape Nat} (same : node = ⟨shape, some cond⟩) :
              ∃ i node, graph.table i = some node ∧ w ∈ node.tested :=
            ⟨v, node, found, Node.mem_tested.mpr ⟨cond, by rw [same], member⟩⟩
          obtain ⟨shape, nodeCond⟩ := node
          cases shape with
          | leaf vertex =>
              cases nodeCond with
              | some folded =>
                  cases isCond
                  exact .inr (carried rfl)
              | none =>
                  cases isCond
                  rw [List.mem_singleton.mp member]
                  exact .inl ((wellFormed.mem_leaves found).mpr (.inl rfl))
          | seq nodes =>
              cases nodeCond with
              | some folded =>
                  cases isCond
                  exact .inr (carried rfl)
              | none =>
                  obtain ⟨r, isLast, isCond⟩ := Option.bind_eq_some_iff.mp isCond
                  exact ofPart (List.mem_of_getLast? isLast) isCond
          | tail body =>
              cases nodeCond <;> exact ofPart List.mem_cons_self isCond
          | _ => cases nodeCond <;> cases isCond

/-- A leaf or a sequence with a single exit carries no condition. -/
theorem Faithful.unconditional (wellFormed : graph.WellFormed)
    (faithful : Faithful config targets graph) (live : graph.isLive v = true) {node : Node}
    (found : graph.table v = some node) (kind : node.kind = .leaf ∨ node.kind = .seq)
    (compound : ∀ w, node.cond ≠ some (.test w)) {t : Nat} (exits : graph.exits v = [t]) :
    node.cond = none := by
  by_contra carries
  obtain ⟨cond, isCond⟩ := Option.ne_none_iff_exists'.mp carries
  have branchCond := wellFormed.branchCond?_of_cond found kind isCond
  cases faithful.ending live with
  | plain isVertex isPlain firsts =>
      rw [branchCond] at isPlain
      cases isPlain
      exact compound _ isCond
  | @folded vertex a b _ _ _ isVertex isFolded isFirst branches distinct =>
      have bothExits : a ∈ graph.exits v ∧ b ∈ graph.exits v := by
        simp [RegionGraph.exits, List.mem_eraseDups, branches]
      simp only [exits, List.mem_singleton] at bothExits
      exact distinct (bothExits.1.trans bothExits.2.symm)
  | closed noVertex noCond few =>
      rw [branchCond] at noCond
      cases noCond

/-! ## Tallies -/

/-- How often a vertex is a leaf of live regions outside of copies. -/
def tally (graph : RegionGraph) (w : Nat) : Nat :=
  ∑ v ∈ graph.liveSet, (graph.ownLeaves v).count w

/-- Regions that are added without leaves of their own do not count. -/
theorem Extends.tally_eq (growth : Extends graph changed) (nested : graph.table.Nested)
    (stays : ∀ {v}, graph.isLive v = true → changed.isLive v = true)
    (fresh : ∀ {v}, changed.isLive v = true → graph.isLive v = true ∨ changed.ownLeaves v = [])
    (w : Nat) : changed.tally w = graph.tally w := by
  have old : ∑ v ∈ graph.liveSet, (graph.ownLeaves v).count w =
      ∑ v ∈ graph.liveSet, (changed.ownLeaves v).count w := by
    refine Finset.sum_congr rfl fun v live => ?_
    rw [ownLeaves, ownLeaves,
      growth.gather_eq nested (Digraph.lt_size_of_isLive (mem_liveSet.mp live))]
  rw [tally, tally, old]
  refine (Finset.sum_subset (fun v live => ?_) fun v live notOld => ?_).symm
  · exact mem_liveSet.mpr (stays (mem_liveSet.mp live))
  · rcases fresh (mem_liveSet.mp live) with isOld | noLeaves
    · exact absurd (mem_liveSet.mpr isOld) notOld
    · rw [noLeaves, List.count_nil]

/-- A collapse takes out the leaves that it folds, and no others. -/
theorem Made.tally_eq {whole opened folded : List Nat} (wellFormed : graph.WellFormed)
    (fits : graph.Fits collapse) (distinct : collapse.members.Nodup)
    (collapsed : Collapsed graph collapse new changed)
    (made : Made config labels graph collapse whole opened folded) (w : Nat) :
    changed.tally w + (folded.flatMap graph.ownLeaves).count w = graph.tally w := by
  have same (u : Nat) (live : graph.isLive u = true) (_ : u ∉ collapse.members) :
      (changed.ownLeaves u).count w = (graph.ownLeaves u).count w := by
    rw [ownLeaves, ownLeaves,
      collapsed.growth.gather_eq wellFormed.nested (Digraph.lt_size_of_isLive live)]
  have taken : (collapse.members.map fun u => (graph.ownLeaves u).count w).sum =
      (changed.ownLeaves new).count w + (folded.flatMap graph.ownLeaves).count w := by
    have handed : (changed.ownLeaves new).Perm ((whole ++ opened).flatMap graph.ownLeaves) :=
      made.leaves_perm wellFormed fits collapsed fun _ => id
    calc (collapse.members.map fun u => (graph.ownLeaves u).count w).sum
        = (collapse.members.flatMap graph.ownLeaves).count w := List.count_flatMap.symm
      _ = ((whole ++ opened ++ folded).flatMap graph.ownLeaves).count w :=
        (made.members.flatMap_right _).count_eq w
      _ = _ := by rw [List.flatMap_append, List.count_append, handed.count_eq]
  have balance := collapsed.sum_liveSet fits distinct same
  rw [taken] at balance
  rw [tally, tally]
  omega

/-! ## Accounts -/

/-- Where the vertices that a run keeps are found: leaves and conditions mention
no others, and each is a leaf once, or else was folded and is tested. -/
structure Accounted (config : Config) (kept : Nat → Prop) (graph : RegionGraph) : Prop where
  leaf : ∀ {v w}, graph.isLive v = true → w ∈ graph.leaves v → kept w
  cond : ∀ {i node}, graph.table i = some node → ∀ w ∈ node.tested, kept w
  compound : ∀ {i node}, graph.table i = some node → node.kind = .leaf ∨ node.kind = .seq →
    ∀ w, node.cond ≠ some (.test w)
  once : ∀ {w}, kept w → graph.tally w = 1 ∨
    graph.tally w = 0 ∧ config.onlyTests w = true ∧
      ∃ v, graph.isLive v = true ∧ w ∈ graph.ownTests v

/-- A graph of single leaves keeps what is live. -/
theorem accounted_of_leaves (wellFormed : graph.WellFormed)
    (single : ∀ {i node}, graph.table i = some node → node = { shape := .leaf i })
    (isKept : ∀ w, kept w ↔ graph.isLive w = true) : Accounted config kept graph := by
  have gathers (enter : Node → Bool) {v : Nat} (live : graph.isLive v = true) :
      graph.gather enter Node.leafVertices v = [v] := by
    obtain ⟨node, found⟩ := Option.isSome_iff_exists.mp
      ((table_isSome_iff wellFormed.consistent).mpr
        ⟨wellFormed.consistent.two_le_of_isLive live, Digraph.lt_size_of_isLive live⟩)
    rw [gather_node wellFormed.nested found, single found]
    split <;> rfl
  refine ⟨fun {v w} live isLeaf => ?_, fun {i node} found w isTested => ?_,
    fun {i node} found _ w isTest => ?_, fun {w} isKept' => .inl ?_⟩
  · rw [leaves_eq_gather, gathers _ live, List.mem_singleton] at isLeaf
    rwa [isKept, isLeaf]
  · rw [single found] at isTested
    cases isTested
  · rw [single found] at isTest
    cases isTest
  · have live := (isKept w).mp isKept'
    rw [tally, Finset.sum_eq_single w]
    · rw [ownLeaves, gathers _ live, List.count_singleton_self]
    · intro v vLive different
      rw [ownLeaves, gathers _ (mem_liveSet.mp vLive), List.count_singleton,
        beq_false_of_ne different]
      rfl
    · exact fun notLive => absurd (mem_liveSet.mpr live) notLive

section Effects

variable (wellFormed : graph.WellFormed) (accounted : Accounted config kept graph)
include wellFormed accounted

/-- Accounts stay right when regions are added that have no leaves of their own
and carry no condition. -/
theorem Accounted.grown (growth : Extends graph changed)
    (stays : ∀ {v}, graph.isLive v = true → changed.isLive v = true)
    (fresh : ∀ {v}, changed.isLive v = true → graph.isLive v = true ∨
      changed.ownLeaves v = [] ∧
        ∀ w ∈ changed.leaves v, ∃ u, graph.isLive u = true ∧ w ∈ graph.leaves u)
    (bare : ∀ {i node}, changed.table i = some node →
      graph.table i = some node ∨ node.cond = none) : Accounted config kept changed := by
  have nested := wellFormed.nested
  have tally := growth.tally_eq nested stays fun live => (fresh live).imp_right And.left
  refine ⟨fun {v w} live isLeaf => ?_, fun {i node} found w isTested => ?_,
    fun {i node} found kind w isTest => ?_, fun {w} isKept => ?_⟩
  · rcases fresh live with old | ⟨_, ofOld⟩
    · rw [growth.leaves_eq nested (Digraph.lt_size_of_isLive old)] at isLeaf
      exact accounted.leaf old isLeaf
    · obtain ⟨u, uLive, isLeaf⟩ := ofOld w isLeaf
      exact accounted.leaf uLive isLeaf
  · rcases bare found with old | none
    · exact accounted.cond old w isTested
    · simp [Node.tested, none] at isTested
  · rcases bare found with old | none
    · exact accounted.compound old kind w isTest
    · rw [none] at isTest
      cases isTest
  · rw [tally]
    rcases accounted.once isKept with one | ⟨zero, onlyTests, v, live, isTested⟩
    · exact .inl one
    · refine .inr ⟨zero, onlyTests, v, stays live, ?_⟩
      rwa [ownTests, growth.gather_eq nested (Digraph.lt_size_of_isLive live)]

omit wellFormed accounted in
/-- A jump has no leaves. -/
theorem gather_jump (nested : graph.table.Nested) {place : Nat} {cond : Option Cond}
    (found : graph.table v = some ⟨.jump place, cond⟩) (enter : Node → Bool) :
    graph.gather enter Node.leafVertices v = [] := by
  rw [gather_node nested found]
  split <;> rfl

theorem Severed.keeps_accounted {source target : Nat} (after : changed.WellFormed)
    (severed : Severed graph source target changed) : Accounted config kept changed := by
  refine accounted.grown wellFormed severed.growth
    (fun live => (severed.live_iff _).mpr (.inr live)) (fun {v} live => ?_)
    fun {i node} found => ?_
  · rcases (severed.live_iff v).mp live with rfl | old
    · have noLeaves := gather_jump after.nested severed.table_new
      refine .inr ⟨noLeaves _, fun w isLeaf => ?_⟩
      rw [leaves_eq_gather, noLeaves] at isLeaf
      cases isLeaf
    · exact .inl old
  · rcases severed.table_cases found with ⟨_, old⟩ | ⟨_, rfl⟩
    · exact .inl old
    · exact .inr rfl

theorem Copied.keeps_accounted {outside : List Nat} (after : changed.WellFormed)
    (live : graph.isLive v = true) (copied : Copied graph v outside changed) :
    Accounted config kept changed := by
  refine accounted.grown wellFormed copied.growth
    (fun live => (copied.live_iff _).mpr (.inl live)) (fun {u} uLive => ?_)
    fun {i node} found => ?_
  · rcases (copied.live_iff u).mp uLive with old | ⟨low, high⟩
    · exact .inl old
    rcases Nat.eq_or_lt_of_le low with rfl | fresh
    · refine .inr ⟨?_, fun w isLeaf => ⟨v, live, ?_⟩⟩
      · rw [ownLeaves, gather_node after.nested copied.table_copy]
        rfl
      · rcases (after.mem_leaves copied.table_copy).mp isLeaf with own | ⟨c, isChild, below⟩
        · cases own
        · rw [List.mem_singleton.mp isChild,
            copied.growth.leaves_eq wellFormed.nested (Digraph.lt_size_of_isLive live)] at below
          exact below
    · obtain ⟨_, place, _, _, isCopy⟩ := copied.table_fresh fresh high
      have noLeaves := gather_jump after.nested isCopy
      refine .inr ⟨noLeaves _, fun w isLeaf => ?_⟩
      rw [leaves_eq_gather, noLeaves] at isLeaf
      cases isLeaf
  · rcases copied.table_cases found with
      ⟨_, old⟩ | ⟨_, rfl⟩ | ⟨_, _, _, _, _, rfl⟩
    · exact .inl old
    · exact .inr rfl
    · exact .inr rfl

/-- The condition of a branch of a live region tests vertices that are kept. -/
theorem Accounted.kept_of_branchCond? (live : graph.isLive v = true) {cond : Cond}
    (isCond : graph.branchCond? v = some cond) (member : w ∈ cond.vertices) : kept w := by
  rcases wellFormed.mem_vertices_branchCond? (Digraph.lt_size_of_isLive live) isCond member with
    isLeaf | ⟨i, node, found, isTested⟩
  · exact accounted.leaf live isLeaf
  · exact accounted.cond found w isTested

section Collapse

variable {whole opened folded : List Nat} (faithful : Faithful config targets graph)
  (fits : graph.Fits collapse) (made : Made config labels graph collapse whole opened folded)
include faithful fits made

omit accounted in
/-- A vertex that a collapse folds is tested by the new region. -/
theorem Made.mem_tested_of_folded (isFolded : w ∈ folded.flatMap graph.ownLeaves) :
    config.onlyTests w = true ∧ w ∈ collapse.node.tested := by
  obtain ⟨m, isFolded, isLeaf⟩ := List.mem_flatMap.mp isFolded
  have mLive := fits.live m (made.members.mem_iff.mpr (List.mem_append_right _ isFolded))
  obtain ⟨_, _, vertex, _, _, inner, foldable, kept⟩ := made.folds m isFolded
  obtain ⟨cond, found⟩ := foldable.leaf
  have isVertex : w = vertex := by
    rw [ownLeaves, gather_node wellFormed.nested found] at isLeaf
    exact List.mem_singleton.mp isLeaf
  -- The condition of a leaf starts with the test of its own branch.
  obtain ⟨condition, _, _, isCond, isFirst, _⟩ :=
    (faithful.ending mLive).leads foldable.inner_branches
  rw [foldable.inner_cond] at isCond
  cases isCond
  rw [wellFormed.branchingVertex?_unfold (Digraph.lt_size_of_isLive mLive), found] at isFirst
  have sameFirst : vertex = inner.1.first := Option.some.inj isFirst
  refine ⟨isVertex ▸ foldable.onlyTests, kept ?_⟩
  rw [isVertex, sameFirst]
  exact Cond.first_mem_vertices inner.1

variable (collapsed : Collapsed graph collapse new changed)
include collapsed

/-- What members test stays tested. -/
theorem Accounted.mem_ownTests_new {m : Nat} (member : m ∈ collapse.members)
    (isTested : w ∈ graph.ownTests m) : w ∈ changed.ownTests new := by
  refine made.mem_ownTests wellFormed fits collapsed (fun m isOpened t exits => ?_) member
    isTested
  obtain ⟨node, found, kind⟩ := made.opens m isOpened
  have isMember := made.members.mem_iff.mpr
    (List.mem_append_left _ (List.mem_append_right whole isOpened))
  have none := faithful.unconditional wellFormed (fits.live m isMember) found kind
    (accounted.compound found kind) exits
  rw [held_eq found, Node.tested, none]
  rfl

/-- Behind a collapse a vertex that is kept is a leaf once, or tested. -/
theorem Accounted.once_collapsed (distinct : collapse.members.Nodup) (isKept : kept w) :
    changed.tally w = 1 ∨ changed.tally w = 0 ∧ config.onlyTests w = true ∧
      ∃ v, changed.isLive v = true ∧ w ∈ changed.ownTests v := by
  have newLive := (collapsed.live_iff new).mpr (.inl rfl)
  have balance := made.tally_eq wellFormed fits distinct collapsed w
  by_cases dropped : w ∈ folded.flatMap graph.ownLeaves
  · obtain ⟨onlyTests, isTested⟩ := made.mem_tested_of_folded wellFormed faithful fits dropped
    refine .inr ⟨?_, onlyTests, new, newLive, ?_⟩
    · have counts := List.count_pos_iff.mpr dropped
      have atMostOne : graph.tally w ≤ 1 := by
        rcases accounted.once isKept with one | zero <;> omega
      omega
    · rw [ownTests, collapsed.gather_new wellFormed fits (fun _ => id) (fun _ => rfl)
        made.original]
      exact List.mem_append_left _ isTested
  · rw [List.count_eq_zero.mpr dropped, Nat.add_zero] at balance
    rw [balance]
    rcases accounted.once isKept with one | ⟨zero, onlyTests, u, live, isTested⟩
    · exact .inl one
    refine .inr ⟨zero, onlyTests, ?_⟩
    by_cases member : u ∈ collapse.members
    · exact ⟨new, newLive, accounted.mem_ownTests_new wellFormed faithful fits made collapsed member
        isTested⟩
    · refine ⟨u, (collapsed.live_iff u).mpr (.inr ⟨live, member⟩), ?_⟩
      rwa [ownTests, collapsed.growth.gather_eq wellFormed.nested (Digraph.lt_size_of_isLive live)]

end Collapse

theorem Collapsed.keeps_accounted (faithful : Faithful config targets graph)
    (live : graph.isLive v = true) (found : Matches config labels graph v collapse)
    (collapsed : Collapsed graph collapse new changed) : Accounted config kept changed := by
  have fits := found.fits wellFormed live
  obtain ⟨whole, opened, folded, made⟩ := found.made wellFormed live
  refine ⟨fun {u w} uLive isLeaf => ?_, fun {i node} isNode w isTested => ?_,
    fun {i node} isNode kind w isTest => ?_, fun {w} isKept => ?_⟩
  · rcases (collapsed.live_iff u).mp uLive with rfl | ⟨old, _⟩
    · rw [leaves_eq_gather, (made.leaves_perm wellFormed fits collapsed fun _ _ => rfl).mem_iff,
        List.mem_flatMap] at isLeaf
      obtain ⟨m, isPart, isLeaf⟩ := isLeaf
      rw [← leaves_eq_gather] at isLeaf
      have isMember := made.members.mem_iff.mpr (List.mem_append_left _ isPart)
      exact accounted.leaf (fits.live m isMember) isLeaf
    · rw [collapsed.growth.leaves_eq wellFormed.nested (Digraph.lt_size_of_isLive old)] at isLeaf
      exact accounted.leaf old isLeaf
  · rcases collapsed.table_cases isNode with
      ⟨_, old⟩ | ⟨_, _, isPart⟩ | ⟨_, rfl⟩
    · exact accounted.cond old w isTested
    · obtain ⟨nodes, rfl, _⟩ := fits.part_shape node isPart
      cases isTested
    · obtain ⟨m, member, cond, isCond, isVertex⟩ := made.tests w isTested
      exact accounted.kept_of_branchCond? wellFormed (fits.live m member) isCond isVertex
  · rcases collapsed.table_cases isNode with
      ⟨_, old⟩ | ⟨_, _, isPart⟩ | ⟨_, rfl⟩
    · exact accounted.compound old kind w isTest
    · obtain ⟨nodes, rfl, _⟩ := fits.part_shape node isPart
      cases isTest
    · exact made.compound kind w isTest
  · exact accounted.once_collapsed wellFormed faithful fits made collapsed found.nodup isKept

end Effects

end RegionGraph

/-! ## Steps and runs -/

namespace State

variable {config : Config} {targets : Nat → List Nat} {kept : Nat → Prop}
  {start state next later : State}

def Keeps (start : State) (w : Nat) : Prop :=
  start.graph.isLive w = true ∧ start.graph.Reaches .forward root w

/-- Legal steps keep accounts right once every live region is reached. -/
theorem Legal.keeps_accounted {action : Action} (wellFormed : state.graph.WellFormed)
    (faithful : RegionGraph.Faithful config targets state.graph) (all : state.graph.AllReached)
    (accounted : RegionGraph.Accounted config kept state.graph)
    (legal : Legal config state action) :
    RegionGraph.Accounted config kept (state.perform action).1.graph := by
  have after := legal.keeps_wellFormed wellFormed
  have noPrune := legal.not_prune all
  cases legal with
  | prune => exact absurd rfl (noPrune _)
  | collapse _ live found =>
      exact (RegionGraph.collapsed_collapse wellFormed
        (found.fits wellFormed live)).keeps_accounted wellFormed accounted faithful live found
  | duplicate _ _ live entering =>
      exact (RegionGraph.copied_giveCopy wellFormed.consistent (Digraph.lt_size_of_isLive live)
        entering).keeps_accounted wellFormed accounted after live
  | cut _ live edge =>
      exact (RegionGraph.severed_redirect wellFormed.consistent _ _).keeps_accounted wellFormed
        accounted after

section Runs

variable (proper : Proper config targets start)
  (single : ∀ {i node}, start.graph.table i = some node → node = { shape := .leaf i })
include proper single

/-- Accounts are right at the start of a run when every live region is
reached. -/
theorem Proper.accounted_start (all : start.graph.AllReached) :
    RegionGraph.Accounted config start.Keeps start.graph :=
  RegionGraph.accounted_of_leaves proper.wellFormed single fun w =>
    ⟨And.left, fun live => ⟨live, all w live⟩⟩

/-- Accounts are right behind the first step of a run. -/
theorem Proper.accounted_next (steps : Steps config start next) :
    RegionGraph.Accounted config start.Keeps next.graph := by
  obtain ⟨_, action, chosen, rfl⟩ := steps
  have legal := legal_of_choose proper.wellFormed chosen
  by_cases all : start.graph.AllReached
  · exact legal.keeps_accounted proper.wellFormed proper.faithful all
      (proper.accounted_start single all)
  -- Only a prune is legal now, and it leaves the leaves that are reached.
  have after := legal.keeps_wellFormed proper.wellFormed
  cases legal with
  | @prune regions someStray strayIff =>
      have pruned := RegionGraph.pruned_isolateAll proper.wellFormed.consistent regions
      refine RegionGraph.accounted_of_leaves after (fun {i node} found => ?_) fun w => ?_
      · exact single ((pruned.table_eq i).symm.trans found)
      · refine Iff.trans ?_ (pruned.live_iff w).symm
        rw [strayIff]
        exact ⟨fun ⟨live, reached⟩ => ⟨live, fun stray => stray.2 reached⟩,
          fun ⟨live, notStray⟩ => ⟨live, by_contra fun unreached => notStray ⟨live, unreached⟩⟩⟩
  | collapse reached | duplicate reached | cut reached => exact absurd reached all

/-- Accounts are right from the first step of a run on. -/
theorem Proper.accounted_later (first : Steps config start next)
    (reached : Reached config next later) :
    RegionGraph.Accounted config start.Keeps later.graph := by
  suffices both : later.graph.AllReached ∧ RegionGraph.Accounted config start.Keeps later.graph from
    both.2
  induction reached with
  | refl =>
      refine ⟨?_, proper.accounted_next single first⟩
      obtain ⟨_, action, chosen, rfl⟩ := first
      exact (legal_of_choose proper.wellFormed chosen).allReached proper.wellFormed
  | @tail state later before steps inductionHypothesis =>
      obtain ⟨all, accounted⟩ := inductionHypothesis
      have here := proper.reached (.head first before)
      obtain ⟨_, action, chosen, rfl⟩ := steps
      have legal := legal_of_choose here.wellFormed chosen
      exact ⟨legal.allReached here.wellFormed,
        legal.keeps_accounted here.wellFormed here.faithful all accounted⟩

end Runs

end State

end FlowRegions
