import FlowRegions.Proofs.Interval.Reducibility
import FlowRegions.Proofs.Structuring.Fidelity

/-!
Contract: a collapse is a contraction of the region graph.

The members are one class, owned by the entry, and every other region is a class
of its own.  Members are entered from the region that the rule looked at and from
nowhere else, so every cycle among them passes that region; only the place where a
counting loop starts is a member that no other member leads to.

Owns:
- `RegionGraph.Matches.absorbed_or_unentered`, how members are entered;
- `RegionGraph.Collapsed.contracts`, from which the heads of cycles before and
  behind a collapse follow from one another.
-/

namespace FlowRegions.RegionGraph

open FlowRegions.Digraph (root terminator)

variable {config : Config} {labels : List Nat} {graph changed : RegionGraph} {v new : Nat}
  {collapse : Collapse}

/-! ## How members are entered -/

section Members

variable (consistent : graph.Consistent)
include consistent

/-- What a region alone leads to belongs to its interval. -/
theorem absorbed_of_entersAlone {m : Nat} (alone : graph.entersAlone v m = true)
    (live : graph.isLive m = true) : graph.Absorbed v m := by
  obtain ⟨edge, only⟩ := (entersAlone_iff consistent).mp alone
  have real := consistent.two_le_of_isLive live
  have notRoot : m ≠ root := by
    simp only [root]
    omega
  refine .absorb notRoot ((Digraph.isLive_iff graph m).mp live).2
    (consistent.mem_predecessors.mpr edge) fun q entered => ?_
  rw [only q (consistent.mem_predecessors.mp entered)]
  exact .head

/-- No member of a counting loop leads to the place where it starts. -/
theorem Counting.unentered {body follow init step p : Nat} {nodes : List Nat}
    {cond : Option Cond} (loop : TopTested config graph v body follow cond)
    (counting : Counting config graph v body follow init step nodes)
    (member : p ∈ [init, v, body]) : init ∉ graph.successors p := by
  have notEnd : init ≠ terminator := by
    have leaf := counting.init_leaf
    unfold isLeaf kind? at leaf
    obtain ⟨node, found, _⟩ := Option.map_eq_some_iff.mp (beq_iff_eq.mp leaf)
    have real := ((table_isSome_iff consistent).mp (by rw [found]; rfl)).1
    simp only [terminator]
    omega
  have fromHead {d : Nat} (edge : d ∈ graph.successors v) (real : d ≠ terminator) :
      d = body ∨ d = follow :=
    (loop.twoWay.mem_branches d).mp (mem_branches.mpr ⟨edge, real⟩)
  have notHead := counting.init_ne_head loop
  intro edge
  simp only [List.mem_cons, List.not_mem_nil, or_false] at member
  rcases member with rfl | rfl | rfl
  · exact notHead (counting.mem_successors_init.mp edge)
  · exact (fromHead edge notEnd).elim counting.init_ne_body counting.init_ne_follow
  · have exit := mem_exits.mpr ⟨edge, notEnd⟩
    rw [loop.body_exits] at exit
    exact notHead (List.mem_singleton.mp exit)

/-- A member belongs to the interval of the region that the rule looked at, or no
member leads to it. -/
theorem Matches.absorbed_or_unentered (found : Matches config labels graph v collapse)
    (live : ∀ m ∈ collapse.members, graph.isLive m = true) {m : Nat}
    (member : m ∈ collapse.members) :
    graph.Absorbed v m ∨ ∀ p ∈ collapse.members, m ∉ graph.successors p := by
  -- All rules but one ask that members are entered from the region alone.
  have ofAlone {members : List Nat} (alone : ∀ d ∈ members, graph.entersAlone v d = true)
      (here : m ∈ v :: members) : graph.Absorbed v m := by
    rcases List.mem_cons.mp here with isHead | later
    · rw [isHead]
      exact .head
    · exact absorbed_of_entersAlone consistent (alone m later) (live m member)
  cases found with
  | forever | selfLoop => exact .inl (ofAlone (by simp) member)
  | whileLoop loop => exact .inl (ofAlone (by simpa using loop.body_alone) member)
  | forLoop loop counting isInner =>
      rcases List.mem_cons.mp member with isInit | inLoop
      · rw [isInit]
        exact .inr fun p isMember => counting.unentered consistent loop isMember
      · exact .inl (ofAlone (by simpa using loop.body_alone) inLoop)
  | doWhile exits proper alone twoWay leaves => exact .inl (ofAlone (by simpa using alone) member)
  | compound foldable branch => exact .inl (ofAlone (by simpa using foldable.alone) member)
  | sequence exits proper alone ends => exact .inl (ofAlone (by simpa using alone) member)
  | ifElse notMany branches proper thenAlone elseAlone =>
      exact .inl (ofAlone (by simpa using ⟨thenAlone, elseAlone⟩) member)
  | ifThen twoWay proper alone exits => exact .inl (ofAlone (by simpa using alone) member)
  | switch switching returns => exact .inl (ofAlone switching.arm_alone member)

/-- A cycle among the members passes the region that the rule looked at. -/
theorem exists_head_of_members (entered : ∀ m ∈ collapse.members,
      graph.Absorbed v m ∨ ∀ p ∈ collapse.members, m ∉ graph.successors p)
    {path : List Nat} (cycle : graph.Cycle path) (inside : ∀ m ∈ path, m ∈ collapse.members) :
    ∃ head ∈ path, ∀ m ∈ path, graph.Dominates .forward head m := by
  have absorbed {m : Nat} (onPath : m ∈ path) : graph.Absorbed v m := by
    refine (entered m (inside m onPath)).resolve_right fun unentered => ?_
    obtain ⟨_, y, same, walk, back⟩ := cycle.rotate onPath
    exact unentered y (inside y (same.mem_iff.mp walk.end_mem)) back
  have ⟨_, start, _, walk, _⟩ := cycle
  refine ⟨v, (absorbed walk.start_mem).mem_of_cycle consistent cycle walk.start_mem, ?_⟩
  exact fun m onPath => (absorbed onPath).dominates consistent

end Members

/-! ## Collapses as contractions -/

/-- The owner of a region: the entry for members, and itself for all others. -/
def owner (collapse : Collapse) (v : Nat) : Nat :=
  if v ∈ collapse.members then collapse.entry else v

theorem owner_of_mem {u : Nat} (member : u ∈ collapse.members) :
    owner collapse u = collapse.entry :=
  if_pos member

theorem owner_of_notMem {u : Nat} (outside : u ∉ collapse.members) : owner collapse u = u :=
  if_neg outside

section Collapse

variable (fits : graph.Fits collapse)
include fits

theorem Fits.turn_of_notMem {u : Nat} (outside : u ∉ collapse.members) :
    turn collapse.entry new u = u :=
  turn_of_ne fun same => outside (same ▸ fits.entry_mem)

/-- Where an edge leads: to an owner, or further into the members. -/
theorem Fits.owner_cases {u t : Nat} (edge : t ∈ graph.successors u) :
    t = owner collapse t ∨ owner collapse u = owner collapse t := by
  by_cases member : t ∈ collapse.members
  · rw [owner_of_mem member]
    by_cases isEntry : t = collapse.entry
    · exact .inl isEntry
    · exact .inr (owner_of_mem (fits.single member isEntry edge))
  · exact .inl (owner_of_notMem member).symm

variable (wellFormed : graph.WellFormed)
include wellFormed

/-- Members are reached from the entry through members. -/
theorem Fits.reaches_member (all : graph.AllReached) {m : Nat}
    (member : m ∈ collapse.members) :
    Relation.ReflTransGen (fun a b => graph.Edge .forward a b ∧ b ∈ collapse.members)
      collapse.entry m := by
  have reaches := all m (fits.live m member)
  rw [Digraph.reaches_iff] at reaches
  induction reaches with
  | refl => exact absurd member (fits.root_notMem wellFormed)
  | @tail p m _ edge inductionHypothesis =>
      by_cases isEntry : m = collapse.entry
      · rw [isEntry]
      · exact (inductionHypothesis (fits.single member isEntry edge)).tail ⟨edge, member⟩

variable (collapsed : Collapsed graph collapse new changed)
include collapsed

omit wellFormed in
/-- Edges out of the members, and edges that do not touch them, are there behind the
collapse. -/
theorem Collapsed.edge_of_crossing {u t : Nat} (edge : t ∈ graph.successors u)
    (different : owner collapse u ≠ owner collapse t) :
    turn collapse.entry new (owner collapse t) ∈
      changed.successors (turn collapse.entry new (owner collapse u)) := by
  have later := collapsed.size_le
  by_cases member : u ∈ collapse.members
  · have outside : t ∉ collapse.members := fun member' =>
      different ((owner_of_mem member).trans (owner_of_mem member').symm)
    rw [owner_of_mem member, owner_of_notMem outside, turn_old, collapsed.successors_new]
    refine mem_collapsedTargets.mpr ?_
    by_cases isEnd : t = terminator
    · rw [fits.turn_of_notMem outside, isEnd]
      by_cases isOut : terminator ∈ collapse.out
      · exact .inl ⟨terminator, isOut, fits.turn_of_notMem (isEnd ▸ outside)⟩
      · have returns := (fits.returns_iff.mpr
          ⟨u, member, returns_iff.mpr (isEnd ▸ edge)⟩).resolve_left isOut
        exact .inr ⟨rfl, returns, isOut⟩
    · have isOut := (fits.covers u member t (mem_exits.mpr ⟨edge, isEnd⟩)).resolve_left outside
      exact .inl ⟨t, isOut, rfl⟩
  · have isOld : u ≠ new := by
      have within := Digraph.lt_size_of_mem_neighbours edge
      omega
    have target : owner collapse t = t :=
      ((fits.owner_cases edge).resolve_right different).symm
    rw [owner_of_notMem member, target, fits.turn_of_notMem member,
      collapsed.successors_old isOld, if_neg member]
    exact List.mem_map_of_mem edge

/-- Edges behind the collapse come from a member, or were there before. -/
theorem Collapsed.exists_edge_before (all : graph.AllReached) {h y : Nat}
    (reaches : graph.Reaches .forward root h) (isOwner : owner collapse h = h)
    (edge : y ∈ changed.successors (turn collapse.entry new h))
    (different : y ≠ turn collapse.entry new h) :
    ∃ k p, y = turn collapse.entry new k ∧ owner collapse k = k ∧ k ∈ graph.successors p ∧
      Relation.ReflTransGen (fun a b => graph.Edge .forward a b ∧ owner collapse b = h) h p := by
  by_cases isEntry : h = collapse.entry
  · subst isEntry
    rw [turn_old] at edge different
    obtain ⟨m, member, old, outside⟩ : ∃ m ∈ collapse.members,
        y ∈ graph.successors m ∧ y ∉ collapse.members := by
      rcases collapsed.successors_new_cases fits edge with
        isNew | ⟨rfl, m, member, old⟩ | ⟨outside, _, m, member, old⟩
      · exact absurd isNew different
      · refine ⟨m, member, old, fun isMember => ?_⟩
        exact wellFormed.ne_terminator_of_isLive (fits.live _ isMember) rfl
      · exact ⟨m, member, old, outside⟩
    refine ⟨y, m, (fits.turn_of_notMem outside).symm, owner_of_notMem outside, old, ?_⟩
    exact Relation.ReflTransGen.mono (fun a b step => ⟨step.1, owner_of_mem step.2⟩) _ _
      (fits.reaches_member wellFormed all member)
  · have within := reaches.lt_size wellFormed.consistent
      (Digraph.start_lt_size wellFormed.consistent .forward)
    have later := collapsed.size_le
    rw [turn_of_ne isEntry] at edge
    obtain ⟨_, ⟨rfl, old⟩ | ⟨outside, old⟩⟩ :=
      collapsed.successors_old_cases fits (by omega) edge
    · exact ⟨collapse.entry, h, (turn_old _ _).symm, owner_of_mem fits.entry_mem, old, .refl⟩
    · exact ⟨y, h, (fits.turn_of_notMem outside).symm, owner_of_notMem outside, old, .refl⟩

/-- A collapse puts its members together. -/
theorem Collapsed.contracts (all : graph.AllReached)
    (entered : ∀ m ∈ collapse.members,
      graph.Absorbed v m ∨ ∀ p ∈ collapse.members, m ∉ graph.successors p) :
    Digraph.Contracts graph changed (owner collapse) (turn collapse.entry new) := by
  have rootOutside := fits.root_notMem wellFormed
  have owner_owner (u : Nat) : owner collapse (owner collapse u) = owner collapse u := by
    by_cases member : u ∈ collapse.members
    · rw [owner_of_mem member, owner_of_mem fits.entry_mem]
    · rw [owner_of_notMem member, owner_of_notMem member]
  have isOld {u : Nat} (reaches : graph.Reaches .forward root u) : owner collapse u ≠ new := by
    have start := Digraph.start_lt_size wellFormed.consistent .forward
    have later := collapsed.size_le
    have within : owner collapse u < graph.size := by
      by_cases member : u ∈ collapse.members
      · rw [owner_of_mem member]
        exact (all _ (fits.live _ fits.entry_mem)).lt_size wellFormed.consistent start
      · rw [owner_of_notMem member]
        exact reaches.lt_size wellFormed.consistent start
    omega
  exact
    { owner_root := owner_of_notMem rootOutside
      place_root := fits.turn_of_notMem rootOutside
      owner_owner := fun {u} _ => owner_owner u
      place_inj := fun reachesU reachesT same =>
        turn_injective (isOld reachesU) (isOld reachesT) same
      inner := fun _ edge => fits.owner_cases edge
      crosses := fun _ edge different =>
        collapsed.edge_of_crossing fits edge different
      lifts := fun reaches isOwner edge different =>
        collapsed.exists_edge_before fits wellFormed all reaches isOwner edge different
      within := by
        intro path h cycle single
        by_cases isEntry : h = collapse.entry
        · refine exists_head_of_members wellFormed.consistent entered cycle fun m onPath => ?_
          by_contra outside
          have isOwner := (single m onPath).2
          rw [owner_of_notMem outside, isEntry] at isOwner
          exact outside (isOwner ▸ fits.entry_mem)
        · -- A class of one region.
          have only {m : Nat} (onPath : m ∈ path) : m = h := by
            have isOwner := (single m onPath).2
            by_cases member : m ∈ collapse.members
            · exact absurd (isOwner.symm.trans (owner_of_mem member)) isEntry
            · rwa [owner_of_notMem member] at isOwner
          have ⟨_, start, _, walk, _⟩ := cycle
          refine ⟨start, walk.start_mem, fun m onPath => ?_⟩
          rw [only walk.start_mem, only onPath]
          exact .refl h }

end Collapse

end FlowRegions.RegionGraph
