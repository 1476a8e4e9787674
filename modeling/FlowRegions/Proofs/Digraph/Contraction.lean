import FlowRegions.Proofs.Digraph.Cycles
import Mathlib.Data.Nat.Find

/-!
Contract: graphs that arise from others by putting classes of vertices together,
and what they have to do with heads of cycles.

A class is entered at one of its vertices only, its owner, which therefore
dominates it.  A cycle that leaves its class passes the owners of the classes it
visits, so it has a head exactly when the cycle of classes has one.  Neither
cycle need be simple once seen through the other graph; what both leave behind
are vertices that lead to one another, and these have a head as soon as every
simple cycle among them has one.

Owns:
- dominance as an order on the vertices that are reached;
- `Digraph.Tied` and `Digraph.HeadedCycles.exists_head`, heads of vertices that
  lead to one another;
- `Digraph.Contracts` and `Digraph.Contracts.headedCycles_iff`, that graphs have
  headed cycles exactly when their contractions have.
-/

namespace FlowRegions.Digraph

variable {α β : Type} {graph : Digraph α} {direction : Direction} {u v w x : Nat}
  {path : List Nat}

/-! ## Dominance as an order -/

theorem Reaches.closure (reaches : graph.Reaches direction u v) :
    Relation.ReflTransGen (fun a b => graph.Edge direction a b ∧ True) u v :=
  Relation.ReflTransGen.mono (fun _ _ edge => ⟨edge, trivial⟩) _ _ (reaches_iff.mp reaches)

theorem reaches_of_closure {holds : Nat → Prop}
    (closure : Relation.ReflTransGen (fun a b => graph.Edge direction a b ∧ holds b) u v) :
    graph.Reaches direction u v :=
  reaches_iff.mpr (Relation.ReflTransGen.mono (fun _ _ step => step.1) _ _ closure)

/-- A walk cut behind a vertex that it passes. -/
theorem Walk.cut (walk : graph.Walk direction u w path) (member : x ∈ path) :
    ∃ front rest, path = front ++ rest ∧ graph.Walk direction u x front ∧
      (x = w ∨ rest ≠ []) := by
  induction walk with
  | stay v =>
      obtain rfl := List.mem_singleton.mp member
      exact ⟨[x], [], rfl, .stay x, .inl rfl⟩
  | @step u v w path edge rest inductionHypothesis =>
      rcases List.mem_cons.mp member with rfl | later
      · exact ⟨[x], path, rfl, .stay x, .inr (List.ne_nil_of_mem rest.start_mem)⟩
      · obtain ⟨front, behind, rfl, walk, ends⟩ := inductionHypothesis later
        exact ⟨u :: front, behind, rfl, .step edge walk, ends⟩

theorem not_dominates_forward_iff {n m : Nat} : ¬ graph.Dominates .forward n m ↔
    root ≠ n ∧ Relation.ReflTransGen (graph.EdgePast .forward n) root m :=
  not_dominates_iff

theorem Dominates.trans {n m : Nat} (first : graph.Dominates direction n m)
    (second : graph.Dominates direction m v) : graph.Dominates direction n v := by
  intro path walk
  obtain ⟨front, rest, rfl, toM, _⟩ := walk.cut (second path walk)
  exact List.mem_append_left rest (first front toM)

/-- A walk that passes a vertex by carries its dominance backwards. -/
theorem Dominates.of_past {n : Nat} (dominates : graph.Dominates direction n v)
    (walk : graph.Walk direction u v path) (past : n ∉ path) :
    graph.Dominates direction n u := by
  by_contra passes
  obtain ⟨notStart, before⟩ := not_dominates_iff.mp passes
  have onward := (exists_walk_past_iff.mp ⟨path, walk, past⟩).2
  exact not_dominates_iff.mpr ⟨notStart, before.trans onward⟩ dominates

/-- Of two vertices that dominate a vertex that is reached, one dominates the other. -/
theorem Dominates.total {n m : Nat} (first : graph.Dominates direction n v)
    (second : graph.Dominates direction m v)
    (reaches : graph.Reaches direction (start direction) v) :
    graph.Dominates direction n m ∨ graph.Dominates direction m n := by
  obtain ⟨path, walk, distinct, _⟩ := exists_simple_walk reaches.closure
  obtain ⟨before, after, rfl, onward, _⟩ := walk.split (first path walk)
  by_cases between : m ∈ after
  · -- The walk goes on from `m` without `n`, unless both are the same.
    obtain ⟨middle, last, rfl, fromM, ⟨_, rfl⟩ | ⟨y, toY, _⟩⟩ := onward.split between
    · exact .inl (.refl n)
    · have apart := (List.nodup_append.mp (List.nodup_append.mp distinct).2.1).2.2
      exact .inl (first.of_past fromM fun again => apart n toY.start_mem n again rfl)
  · exact .inr (second.of_past onward between)

/-- What dominates a vertex is nearer to the start. -/
theorem Dominates.exists_shorter {n : Nat} (dominates : graph.Dominates direction n v)
    (different : n ≠ v) (walk : graph.Walk direction (start direction) v path) :
    ∃ shorter, graph.Walk direction (start direction) n shorter ∧
      shorter.length < path.length := by
  obtain ⟨front, rest, rfl, toN, ends⟩ := walk.cut (dominates path walk)
  have positive := List.length_pos_iff.mpr (ends.resolve_left different)
  refine ⟨front, toN, ?_⟩
  rw [List.length_append]
  omega

/-- A vertex with a property that no other with it is nearer to the start. -/
theorem exists_nearest (holds : Nat → Prop) (here : holds v)
    (reaches : graph.Reaches direction (start direction) v) :
    ∃ near path, holds near ∧ graph.Walk direction (start direction) near path ∧
      ∀ w other, holds w → graph.Walk direction (start direction) w other →
        path.length ≤ other.length := by
  classical
  have some : ∃ length path w, holds w ∧ graph.Walk direction (start direction) w path ∧
      path.length = length := by
    obtain ⟨path, walk⟩ := reaches
    exact ⟨_, path, v, here, walk, rfl⟩
  obtain ⟨path, near, isNear, walk, length⟩ := Nat.find_spec some
  refine ⟨near, path, isNear, walk, fun w other isOther walkOther => ?_⟩
  rw [length]
  exact Nat.find_min' some ⟨other, w, isOther, walkOther, rfl⟩

theorem Dominates.antisymm {n m : Nat} (first : graph.Dominates direction n m)
    (second : graph.Dominates direction m n)
    (reaches : graph.Reaches direction (start direction) n) : n = m := by
  by_contra different
  obtain ⟨near, path, isNear, walk, nearest⟩ :=
    exists_nearest (fun v => v = n ∨ v = m) (.inl rfl) reaches
  rcases isNear with rfl | rfl
  · obtain ⟨shorter, toM, less⟩ := second.exists_shorter (Ne.symm different) walk
    exact absurd (nearest m shorter (.inr rfl) toM) (Nat.not_le.mpr less)
  · obtain ⟨shorter, toN, less⟩ := first.exists_shorter different walk
    exact absurd (nearest n shorter (.inl rfl) toN) (Nat.not_le.mpr less)

/-! ## Vertices that lead to one another -/

/-- The vertices with a property lead to one another without leaving it. -/
def Tied (graph : Digraph α) (holds : Nat → Prop) : Prop :=
  ∀ ⦃u v⦄, holds u → holds v →
    Relation.ReflTransGen (fun a b => graph.Edge .forward a b ∧ holds b) u v

/-- What leads to a vertex and back, without leaving a property. -/
theorem tied_around (graph : Digraph α) (holds : Nat → Prop) (base : Nat) :
    graph.Tied fun v =>
      Relation.ReflTransGen (fun a b => graph.Edge .forward a b ∧ holds b) base v ∧
        Relation.ReflTransGen (fun a b => graph.Edge .forward a b ∧ holds b) v base := by
  rintro u v ⟨toU, fromU⟩ ⟨toV, fromV⟩
  have between := fromU.trans toV
  induction between using Relation.ReflTransGen.head_induction_on with
  | refl => exact .refl
  | head edge rest inductionHypothesis =>
      have onward := toU.tail edge
      exact .head ⟨edge.1, onward, rest.trans fromV⟩
        (inductionHypothesis onward (rest.trans fromV))

theorem Walk.closure {holds : Nat → Prop} (walk : graph.Walk direction u v path)
    (along : ∀ x ∈ path, holds x) :
    Relation.ReflTransGen (fun a b => graph.Edge direction a b ∧ holds b) u v := by
  induction walk with
  | stay v => exact .refl
  | step edge rest inductionHypothesis =>
      obtain ⟨_, onward⟩ := List.forall_mem_cons.mp along
      exact .head ⟨edge, onward _ rest.start_mem⟩ (inductionHypothesis onward)

theorem Cycle.tied (cycle : graph.Cycle path) : graph.Tied (· ∈ path) := by
  intro u v atU atV
  obtain ⟨other, y, same, walk, _⟩ := cycle.rotate atU
  obtain ⟨front, rest, rfl, toV, _⟩ := walk.cut (same.mem_iff.mpr atV)
  exact toV.closure fun x member => same.mem_iff.mp (List.mem_append_left rest member)

/-- Heads of cycles are heads of all vertices that lead to one another. -/
theorem HeadedCycles.exists_head (headed : graph.HeadedCycles) {holds : Nat → Prop}
    (tied : graph.Tied holds) (here : holds v) (reaches : graph.Reaches .forward root v) :
    ∃ head, holds head ∧ ∀ w, holds w → graph.Dominates .forward head w := by
  obtain ⟨near, path, isNear, walk, nearest⟩ := exists_nearest holds here reaches
  refine ⟨near, isNear, fun w isOther => ?_⟩
  -- Otherwise some edge leads out of what is dominated, and closes a cycle.
  by_contra escapes
  obtain ⟨a, b, fromNear, isA, isB, edge, dominatesA, notB⟩ : ∃ a b,
      graph.Reaches .forward root a ∧ holds a ∧ holds b ∧ b ∈ graph.successors a ∧
        graph.Dominates .forward near a ∧ ¬ graph.Dominates .forward near b := by
    have onward := tied isNear isOther
    suffices found : ∀ {c}, Relation.ReflTransGen
        (fun a b => graph.Edge .forward a b ∧ holds b) near c →
        (graph.Dominates .forward near c ∧ holds c ∧ graph.Reaches .forward root c) ∨
        ∃ a b, graph.Reaches .forward root a ∧ holds a ∧ holds b ∧ b ∈ graph.successors a ∧
          graph.Dominates .forward near a ∧ ¬ graph.Dominates .forward near b from
      (found onward).resolve_left fun inside => escapes inside.1
    intro c closure
    induction closure with
    | refl => exact .inl ⟨.refl near, isNear, path, walk⟩
    | @tail c d _ edge inductionHypothesis =>
        refine inductionHypothesis.elim (fun ⟨inside, isC, reachesC⟩ => ?_) .inr
        by_cases dominates : graph.Dominates .forward near d
        · exact .inl ⟨dominates, edge.2, reachesC.edge edge.1⟩
        · exact .inr ⟨c, d, reachesC, isC, edge.2, edge.1, inside, dominates⟩
  obtain ⟨cycle, around, distinct, along⟩ := exists_simple_walk (tied isB isA)
  obtain ⟨head, onCycle, dominates⟩ := headed cycle ⟨distinct, b, a, around, edge⟩
    ⟨a, around.end_mem, fromNear⟩
  have isHead : holds head := (along head onCycle).elim (fun isB' => isB' ▸ isB) id
  have headB := dominates b around.start_mem
  rcases dominatesA.total (dominates a around.end_mem) fromNear with above | below
  · exact notB (above.trans headB)
  · have different : head ≠ near := by
      rintro rfl
      exact notB headB
    obtain ⟨shorter, toHead, less⟩ := below.exists_shorter different walk
    exact absurd (nearest head shorter isHead toHead) (Nat.not_le.mpr less)

/-! ## Contractions -/

/-- Vertices fall into classes, each entered at its owner only; the other graph has a
vertex for each class, at the place of its owner. -/
structure Contracts (graph : Digraph α) (other : Digraph β) (owner place : Nat → Nat) :
    Prop where
  owner_root : owner root = root
  place_root : place root = root
  owner_owner : ∀ {v}, graph.Reaches .forward root v → owner (owner v) = owner v
  place_inj : ∀ {u v}, graph.Reaches .forward root u → graph.Reaches .forward root v →
    place (owner u) = place (owner v) → owner u = owner v
  /-- An edge that does not lead to an owner stays in its class. -/
  inner : ∀ {u v}, graph.Reaches .forward root u → v ∈ graph.successors u →
    v = owner v ∨ owner u = owner v
  /-- Edges between classes are edges of the other graph. -/
  crosses : ∀ {u v}, graph.Reaches .forward root u → v ∈ graph.successors u →
    owner u ≠ owner v → place (owner v) ∈ other.successors (place (owner u))
  /-- Edges of the other graph lead from somewhere in a class to an owner. -/
  lifts : ∀ {h y}, graph.Reaches .forward root h → owner h = h →
    y ∈ other.successors (place h) → y ≠ place h →
    ∃ k p, y = place k ∧ owner k = k ∧ k ∈ graph.successors p ∧
      Relation.ReflTransGen (fun a b => graph.Edge .forward a b ∧ owner b = h) h p
  /-- Cycles within a class have heads. -/
  within : ∀ {path h}, graph.Cycle path →
    (∀ v ∈ path, graph.Reaches .forward root v ∧ owner v = h) →
    ∃ head ∈ path, ∀ v ∈ path, graph.Dominates .forward head v

namespace Contracts

variable {other : Digraph β} {owner place : Nat → Nat}
  (contracts : Contracts graph other owner place)
include contracts

/-- A walk passes the owner of its end, unless it starts in the same class. -/
theorem owner_mem (reaches : graph.Reaches .forward root u)
    (walk : graph.Walk .forward u w path) : owner w ∈ path ∨ owner w = owner u := by
  induction walk with
  | stay v => exact .inr rfl
  | @step u v w path edge rest inductionHypothesis =>
      rcases inductionHypothesis (reaches.edge edge) with later | same
      · exact .inl (List.mem_cons_of_mem u later)
      · rcases contracts.inner reaches edge with isOwner | inside
        · rw [same, ← isOwner]
          exact .inl (List.mem_cons_of_mem u rest.start_mem)
        · exact .inr (same.trans inside.symm)

theorem owner_dominates (v : Nat) : graph.Dominates .forward (owner v) v := by
  intro path walk
  refine (contracts.owner_mem (.refl root) walk).elim id fun same => ?_
  rw [same, contracts.owner_root]
  exact walk.start_mem

theorem reaches_owner (reaches : graph.Reaches .forward root v) :
    graph.Reaches .forward root (owner v) :=
  (contracts.owner_dominates v).reaches reaches

/-! ### From the graph to its contraction -/

/-- A walk visits classes one after the other, each through its owner. -/
theorem closure_place {holds : Nat → Prop} (reaches : graph.Reaches .forward root u)
    (closure : Relation.ReflTransGen (fun a b => graph.Edge .forward a b ∧ holds b) u v) :
    graph.Reaches .forward root v ∧ Relation.ReflTransGen
      (fun a b => other.Edge .forward a b ∧
        ∃ c, holds c ∧ graph.Reaches .forward root c ∧ owner c = c ∧ b = place c)
      (place (owner u)) (place (owner v)) := by
  induction closure with
  | refl => exact ⟨reaches, .refl⟩
  | @tail b c _ edge inductionHypothesis =>
      obtain ⟨reachesB, before⟩ := inductionHypothesis
      have reachesC := reachesB.edge edge.1
      refine ⟨reachesC, ?_⟩
      by_cases same : owner b = owner c
      · rwa [← same]
      · have isOwner := ((contracts.inner reachesB edge.1).resolve_right same).symm
        exact before.tail ⟨contracts.crosses reachesB edge.1 same, c, edge.2, reachesC, isOwner,
          congrArg place isOwner⟩

theorem reaches_place (reaches : graph.Reaches .forward root v) :
    other.Reaches .forward root (place (owner v)) := by
  have closure := (contracts.closure_place (.refl root) reaches.closure).2
  rw [contracts.owner_root, contracts.place_root] at closure
  exact reaches_iff.mpr (Relation.ReflTransGen.mono (fun _ _ edge => edge.1) _ _ closure)

theorem place_inj_of_owner (reachesU : graph.Reaches .forward root u) (isOwner : owner u = u)
    (reachesV : graph.Reaches .forward root v) (isOwner' : owner v = v) :
    place u = place v ↔ u = v := by
  refine ⟨fun same => ?_, congrArg place⟩
  have owners := contracts.place_inj reachesU reachesV (by rwa [isOwner, isOwner'])
  rwa [isOwner, isOwner'] at owners

/-- Owners dominate what their places dominate. -/
theorem dominates_of_place {d : Nat} (reachesD : graph.Reaches .forward root d)
    (isOwner : owner d = d) (dominates : other.Dominates .forward (place d) (place (owner v))) :
    graph.Dominates .forward d v := by
  by_contra passes
  obtain ⟨notStart, past⟩ := not_dominates_forward_iff.mp passes
  have apart {u : Nat} (reaches : graph.Reaches .forward root u) (isOwner' : owner u = u) :
      place u = place d ↔ u = d :=
    contracts.place_inj_of_owner reaches isOwner' reachesD isOwner
  have closure := (contracts.closure_place (.refl root) past).2
  rw [contracts.owner_root, contracts.place_root] at closure
  refine not_dominates_forward_iff.mpr ⟨fun same => ?_, ?_⟩ dominates
  · refine notStart ((apart (.refl root) contracts.owner_root).mp ?_)
    rw [contracts.place_root, same]
  · refine Relation.ReflTransGen.mono (fun a b step => ⟨step.1, ?_⟩) _ _ closure
    obtain ⟨_, c, notD, reaches, isOwner', rfl⟩ := step
    exact fun same => notD ((apart reaches isOwner').mp same)

/-- Cycles have heads when cycles of classes have. -/
theorem headedCycles_of_headedCycles (headed : other.HeadedCycles) : graph.HeadedCycles := by
  intro path cycle ⟨start, onPath, reachesStart⟩
  have tied := cycle.tied
  have reaches (v : Nat) (member : v ∈ path) : graph.Reaches .forward root v :=
    (contracts.closure_place reachesStart (tied onPath member)).1
  by_cases single : ∀ v ∈ path, owner v = owner start
  · exact contracts.within cycle fun v member => ⟨reaches v member, single v member⟩
  push Not at single
  obtain ⟨away, onPath', elsewhere⟩ := single
  have tiedPlaces : other.Tied fun x => ∃ v ∈ path, x = place (owner v) := by
    rintro _ _ ⟨u, atU, rfl⟩ ⟨v, atV, rfl⟩
    refine Relation.ReflTransGen.mono (fun a b step => ⟨step.1, ?_⟩) _ _
      (contracts.closure_place (reaches u atU) (tied atU atV)).2
    obtain ⟨_, c, member, _, isOwner, rfl⟩ := step
    exact ⟨c, member, congrArg place isOwner.symm⟩
  obtain ⟨_, ⟨inHead, atHead, rfl⟩, dominates⟩ := headed.exists_head tiedPlaces
    ⟨start, onPath, rfl⟩ (contracts.reaches_place reachesStart)
  -- The owner of the head's class is on the cycle, since the cycle enters the class.
  refine ⟨owner inHead, ?_, fun v member => ?_⟩
  · obtain ⟨u, atU, outside⟩ : ∃ u ∈ path, owner u ≠ owner inHead := by
      by_cases same : owner start = owner inHead
      · exact ⟨away, onPath', fun same' => elsewhere (same'.trans same.symm)⟩
      · exact ⟨start, onPath, same⟩
    obtain ⟨turned, y, same, walk, _⟩ := cycle.rotate atU
    obtain ⟨front, rest, rfl, toHead, _⟩ := walk.cut (same.mem_iff.mpr atHead)
    have passed := (contracts.owner_mem (reaches _ atU) toHead).resolve_right
      (Ne.symm outside)
    exact same.mem_iff.mp (List.mem_append_left rest passed)
  · exact contracts.dominates_of_place (contracts.reaches_owner (reaches _ atHead))
      (contracts.owner_owner (reaches _ atHead)) (dominates _ ⟨v, member, rfl⟩)

/-! ### From the contraction to the graph -/

/-- A walk of classes is a walk through their owners that stays in these classes. -/
theorem closure_of_place (holds : Nat → Prop) (reaches : graph.Reaches .forward root u)
    (isOwner : owner u = u) (here : holds (place u)) {y : Nat}
    (closure : Relation.ReflTransGen (fun a b => other.Edge .forward a b ∧ holds b)
      (place u) y) :
    ∃ v, y = place v ∧ owner v = v ∧ graph.Reaches .forward root v ∧ Relation.ReflTransGen
      (fun a b => graph.Edge .forward a b ∧ holds (place (owner b))) u v := by
  suffices found : ∃ v, y = place v ∧ owner v = v ∧ holds (place v) ∧
      graph.Reaches .forward root v ∧ Relation.ReflTransGen
        (fun a b => graph.Edge .forward a b ∧ holds (place (owner b))) u v by
    obtain ⟨v, same, isOwner', _, rest⟩ := found
    exact ⟨v, same, isOwner', rest⟩
  induction closure with
  | refl => exact ⟨u, rfl, isOwner, here, reaches, .refl⟩
  | @tail b c _ edge inductionHypothesis =>
      obtain ⟨v, rfl, isOwner', isHolding, reachesV, before⟩ := inductionHypothesis
      by_cases again : c = place v
      · exact ⟨v, again, isOwner', isHolding, reachesV, before⟩
      obtain ⟨k, p, rfl, isOwnerK, leaves, inside⟩ :=
        contracts.lifts reachesV isOwner' edge.1 again
      have toP := reachesV.trans (reaches_of_closure inside)
      refine ⟨k, rfl, isOwnerK, edge.2, toP.edge leaves, ?_⟩
      have through : Relation.ReflTransGen
          (fun a b => graph.Edge .forward a b ∧ holds (place (owner b))) v p := by
        refine Relation.ReflTransGen.mono (fun a b step => ⟨step.1, ?_⟩) _ _ inside
        rw [step.2]
        exact isHolding
      refine (before.trans through).tail ⟨leaves, ?_⟩
      rw [isOwnerK]
      exact edge.2

/-- Places are dominated by those of the owners that dominate theirs. -/
theorem place_dominates {d : Nat} (isOwner : owner d = d)
    (reachesV : graph.Reaches .forward root v) (isOwner' : owner v = v)
    (dominates : graph.Dominates .forward d v) :
    other.Dominates .forward (place d) (place v) := by
  by_contra passes
  obtain ⟨apart, past⟩ := not_dominates_forward_iff.mp passes
  rw [← contracts.place_root] at apart past
  obtain ⟨w, same, isOwnerW, reachesW, closure⟩ := contracts.closure_of_place
    (· ≠ place d) (.refl root) contracts.owner_root apart past
  obtain rfl := (contracts.place_inj_of_owner reachesV isOwner' reachesW isOwnerW).mp same
  have rootApart : root ≠ d := fun same => apart (congrArg place same)
  have beside : Relation.ReflTransGen (graph.EdgePast .forward d) root v := by
    refine Relation.ReflTransGen.mono (fun a b step => ⟨step.1, fun same => step.2 ?_⟩) _ _ closure
    rw [same, isOwner]
  exact not_dominates_forward_iff.mpr ⟨rootApart, beside⟩ dominates

/-- Cycles of classes have heads when cycles have. -/
theorem headedCycles_place (headed : graph.HeadedCycles) : other.HeadedCycles := by
  intro path cycle ⟨x, onPath, reaches⟩
  have tied := cycle.tied
  have owners {y : Nat} (member : y ∈ path) :
      ∃ v, y = place v ∧ owner v = v ∧ graph.Reaches .forward root v := by
    have walk := reaches.trans (reaches_of_closure (tied onPath member))
    rw [← contracts.place_root] at walk
    obtain ⟨v, same, isOwner, reachesV, _⟩ := contracts.closure_of_place (fun _ => True)
      (.refl root) contracts.owner_root trivial walk.closure
    exact ⟨v, same, isOwner, reachesV⟩
  obtain ⟨base, rfl, baseOwner, reachesBase⟩ := owners onPath
  -- Whatever can be walked around in the classes of the cycle holds all their owners.
  have around {u v : Nat} (isOwner : owner u = u) (reachesU : graph.Reaches .forward root u)
      (atU : place u ∈ path) (isOwner' : owner v = v) (reachesV : graph.Reaches .forward root v)
      (atV : place v ∈ path) : Relation.ReflTransGen
        (fun a b => graph.Edge .forward a b ∧ place (owner b) ∈ path) u v := by
    obtain ⟨w, same, isOwnerW, reachesW, closure⟩ := contracts.closure_of_place (· ∈ path)
      reachesU isOwner atU (tied atU atV)
    obtain rfl := (contracts.place_inj_of_owner reachesV isOwner' reachesW isOwnerW).mp same
    exact closure
  obtain ⟨head, ⟨toHead, _⟩, dominates⟩ := headed.exists_head
    (graph.tied_around (fun b => place (owner b) ∈ path) base) ⟨.refl, .refl⟩ reachesBase
  have reachesHead := reachesBase.trans (reaches_of_closure toHead)
  have headOn : place (owner head) ∈ path := by
    cases toHead with
    | refl =>
        rw [baseOwner]
        exact onPath
    | tail _ edge => exact edge.2
  have ownerOwner := contracts.owner_owner reachesHead
  have reachesOwner := contracts.reaches_owner reachesHead
  have dominatesOwners {v : Nat} (isOwner : owner v = v)
      (reachesV : graph.Reaches .forward root v) (atV : place v ∈ path) :
      graph.Dominates .forward head v :=
    dominates v ⟨around baseOwner reachesBase onPath isOwner reachesV atV,
      around isOwner reachesV atV baseOwner reachesBase onPath⟩
  have isOwner : head = owner head := (dominatesOwners ownerOwner reachesOwner headOn).antisymm
    (contracts.owner_dominates head) reachesHead
  rw [← isOwner] at headOn
  refine ⟨place head, headOn, fun y member => ?_⟩
  obtain ⟨v, rfl, isOwnerV, reachesV⟩ := owners member
  exact contracts.place_dominates isOwner.symm reachesV isOwnerV
    (dominatesOwners isOwnerV reachesV member)

/-- Graphs have headed cycles exactly when their contractions have. -/
theorem headedCycles_iff : graph.HeadedCycles ↔ other.HeadedCycles :=
  ⟨contracts.headedCycles_place, contracts.headedCycles_of_headedCycles⟩

end Contracts

end FlowRegions.Digraph
