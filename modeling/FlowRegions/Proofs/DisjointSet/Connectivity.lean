import FlowRegions.Proofs.DisjointSet.Roots
import Mathlib.Data.List.Induction
import Mathlib.Logic.Relation
import Mathlib.Logic.Function.Iterate

/-!
Contract: the sets after any sequence of links and compressions.

Compression is described entry by entry: the elements on the walked path point
at the root of their set, and no other entry changes.  A run of calls is
described by the links in it alone: two elements have one root exactly if the
links connect them, in whatever order and whichever way round they were made.

Owns:
- `DisjointSet.OnPath` and the parent entries after a compression;
- `DisjointSet.afterCalls`, with the invariant `DisjointSet.Joined` of its runs.
-/

namespace FlowRegions.DisjointSet

/-- The walk along the parent entries from `v` comes past `x`. -/
def OnPath (sets : DisjointSet) (v x : Nat) : Prop :=
  ∃ steps, sets.parentOf^[steps] v = x

variable {sets other : DisjointSet} {steps above v w r x y : Nat}

/-! ## The walked path -/

theorem onPath_self (sets : DisjointSet) (v : Nat) : sets.OnPath v v :=
  ⟨0, rfl⟩

theorem OnPath.up (onPath : sets.OnPath (sets.parentOf v) x) : sets.OnPath v x := by
  obtain ⟨steps, arrives⟩ := onPath
  exact ⟨steps + 1, by rwa [Function.iterate_succ_apply]⟩

theorem OnPath.eq_or_above (onPath : sets.OnPath v x) :
    x = v ∨ sets.OnPath (sets.parentOf v) x := by
  obtain ⟨steps, arrives⟩ := onPath
  cases steps with
  | zero => exact .inl arrives.symm
  | succ steps => exact .inr ⟨steps, by rwa [Function.iterate_succ_apply] at arrives⟩

theorem OnPath.eq_of_isRoot (onPath : sets.OnPath r x) (isRoot : sets.parentOf r = r) :
    x = r := by
  obtain ⟨steps, arrives⟩ := onPath
  rw [Function.iterate_fixed isRoot] at arrives
  exact arrives.symm

/-- Every element the walk passes is nearer to the root. -/
theorem RootAt.of_onPath (path : RootAt sets steps v r) (onPath : sets.OnPath v x) :
    ∃ fewer ≤ steps, RootAt sets fewer x r := by
  induction path with
  | here isRoot =>
      rw [onPath.eq_of_isRoot isRoot]
      exact ⟨0, Nat.le_refl 0, .here isRoot⟩
  | @up steps v r notRoot rest inductionHypothesis =>
      rcases onPath.eq_or_above with rfl | later
      · exact ⟨steps + 1, Nat.le_refl _, .up notRoot rest⟩
      · obtain ⟨fewer, bound, shorter⟩ := inductionHypothesis later
        exact ⟨fewer, by omega, shorter⟩

/-- The walk does not come back to where it started. -/
theorem RootAt.not_onPath_parent (path : RootAt sets steps v r) (notRoot : sets.parentOf v ≠ v) :
    ¬ sets.OnPath (sets.parentOf v) v := by
  intro back
  cases path with
  | here isRoot => exact notRoot isRoot
  | up _ rest =>
      obtain ⟨fewer, bound, shorter⟩ := rest.of_onPath back
      have := (shorter.unique (.up notRoot rest)).1
      omega

/-! A walk sees only the entries on its own path. -/

section Agreement

variable (same : ∀ x, sets.OnPath v x → other.parentOf x = sets.parentOf x)

include same

theorem onPath_congr : other.OnPath v x ↔ sets.OnPath v x := by
  have iterates (steps : Nat) : other.parentOf^[steps] v = sets.parentOf^[steps] v := by
    induction steps with
    | zero => rfl
    | succ steps inductionHypothesis =>
        rw [Function.iterate_succ_apply', Function.iterate_succ_apply', inductionHypothesis]
        exact same _ ⟨steps, rfl⟩
  exact exists_congr fun steps => by rw [iterates]

theorem RootAt.congr_onPath (path : RootAt sets steps v r) : RootAt other steps v r := by
  induction path with
  | here isRoot => exact .here (by rwa [same _ (onPath_self _ _)])
  | up notRoot _ inductionHypothesis =>
      have here := same _ (onPath_self _ _)
      refine .up (by rwa [here]) ?_
      rw [here]
      exact inductionHypothesis fun x later => same x later.up

end Agreement

/-! ## What compression writes -/

/-- The loop reaches the root when its fuel is the length of the path, and on
the way it writes the entries of the path and no others. -/
theorem RootAt.parentOf_shorten {fuel : Nat} (path : RootAt sets above v r)
    (enough : above ≤ fuel) :
    (∀ x, sets.OnPath v x → (shorten r fuel sets v).parentOf x = r) ∧
      ∀ x, ¬ sets.OnPath v x → (shorten r fuel sets v).parentOf x = sets.parentOf x := by
  induction fuel generalizing sets v above with
  | zero =>
      obtain rfl : above = 0 := by omega
      cases path with
      | here isRoot =>
          refine ⟨fun x onPath => ?_, fun x _ => rfl⟩
          rw [onPath.eq_of_isRoot isRoot]
          exact isRoot
  | succ fuel inductionHypothesis =>
      rw [DisjointSet.shorten]
      split
      · rename_i last
        refine ⟨fun x onPath => ?_, fun x _ => rfl⟩
        rcases onPath.eq_or_above with rfl | later
        · exact last
        · rw [last] at later
          rw [later.eq_of_isRoot path.isRoot]
          exact path.isRoot
      · rename_i notLast
        cases path with
        | here isRoot => exact absurd isRoot notLast
        | @up above _ _ notRoot rest =>
            have within : v < sets.size := by
              by_contra beyond
              exact notRoot (parentOf_of_size_le (by omega))
            have noReturn := (RootAt.up notRoot rest).not_onPath_parent notRoot
            have elsewhere {x} (different : v ≠ x) :
                (sets.setParent v r).parentOf x = sets.parentOf x := by
              rw [parentOf_setParent, if_neg fun both => different both.1]
            -- The rest of the walk does not read the entry that was just written.
            have unread (x) (later : sets.OnPath (sets.parentOf v) x) :
                (sets.setParent v r).parentOf x = sets.parentOf x :=
              elsewhere fun same => noReturn (same ▸ later)
            obtain ⟨on, off⟩ :=
              inductionHypothesis (rest.congr_onPath unread) (Nat.le_of_succ_le_succ enough)
            simp only [onPath_congr unread] at on off
            refine ⟨fun x onPath => ?_, fun x offPath => ?_⟩
            · rcases onPath.eq_or_above with rfl | later
              · rw [off x noReturn, parentOf_setParent, if_pos ⟨rfl, within⟩]
              · exact on x later
            · rw [off x fun later => offPath later.up]
              exact elsewhere fun same => offPath (same ▸ onPath_self sets v)

theorem Forest.parentOf_compress (forest : sets.Forest) (v : Nat) :
    (∀ x, sets.OnPath v x → (sets.compress v).parentOf x = sets.root v) ∧
      ∀ x, ¬ sets.OnPath v x → (sets.compress v).parentOf x = sets.parentOf x := by
  obtain ⟨steps, path⟩ := forest.rootAt v
  exact path.parentOf_shorten (path.steps_le forest)

/-! ## Runs of calls -/

inductive Call where
  | link (v w : Nat)
  | compress (v : Nat)
deriving DecidableEq, Repr

def Call.Within (count : Nat) : Call → Prop
  | .link v w => v < count ∧ w < count
  | .compress v => v < count

instance (count : Nat) : DecidablePred (Call.Within count)
  | .link v w => inferInstanceAs (Decidable (v < count ∧ w < count))
  | .compress v => inferInstanceAs (Decidable (v < count))

/-- The answer of a call, if it gives one, and the sets it leaves. -/
def perform (sets : DisjointSet) : Call → Option Nat × DisjointSet
  | .link v w => (none, sets.link v w)
  | .compress v => (some (sets.root v), sets.compress v)

def afterCalls (count : Nat) (calls : List Call) : DisjointSet :=
  calls.foldl (fun sets call => (sets.perform call).2) (singletons count)

def Linked (calls : List Call) (v w : Nat) : Prop :=
  .link v w ∈ calls

/-- What a run keeps: the paths end, and two elements have one root exactly if
the links so far connect them. -/
structure Joined (count : Nat) (calls : List Call) (sets : DisjointSet) : Prop where
  size_eq : sets.size = count
  forest : sets.Forest
  root_eq_iff : ∀ x y, sets.root x = sets.root y ↔ Relation.EqvGen (Linked calls) x y

/-- What every link joins, the links connect. -/
theorem root_eq_of_connected {calls : List Call}
    (joins : ∀ a b, Linked calls a b → sets.root a = sets.root b)
    (connected : Relation.EqvGen (Linked calls) x y) : sets.root x = sets.root y := by
  induction connected with
  | rel a b linked => exact joins a b linked
  | refl => rfl
  | symm _ _ _ inductionHypothesis => exact inductionHypothesis.symm
  | trans _ _ _ _ _ first second => exact first.trans second

theorem joined_singletons (count : Nat) : Joined count [] (singletons count) where
  size_eq := by simp [size, singletons]
  forest := forest_singletons count
  root_eq_iff := by
    refine fun x y => ⟨fun same => ?_, root_eq_of_connected fun _ _ linked => ?_⟩
    · rw [root_singletons, root_singletons] at same
      rw [same]
      exact .refl y
    · exact absurd linked List.not_mem_nil

section Step

variable {count : Nat} {calls : List Call}

theorem linked_append_link {a b : Nat} :
    Linked (calls ++ [.link v w]) a b ↔ Linked calls a b ∨ (a = v ∧ b = w) := by
  simp [Linked]

theorem linked_append_compress : Linked (calls ++ [.compress v]) = Linked calls := by
  funext a b
  simp [Linked]

theorem Joined.compress (joined : Joined count calls sets) (v : Nat) :
    Joined count (calls ++ [.compress v]) (sets.compress v) where
  size_eq := by rw [size_compress, joined.size_eq]
  forest := joined.forest.compress v
  root_eq_iff := by
    intro x y
    rw [joined.forest.root_compress, joined.forest.root_compress, linked_append_compress]
    exact joined.root_eq_iff x y

theorem Joined.link (joined : Joined count calls sets) (vWithin : v < count)
    (wWithin : w < count) : Joined count (calls ++ [.link v w]) (sets.link v w) := by
  obtain ⟨forest, roots⟩ :=
    joined.forest.link (joined.size_eq.symm ▸ vWithin) (joined.size_eq.symm ▸ wWithin)
  refine ⟨by rw [size_link, joined.size_eq], forest, fun x y => ?_⟩
  have earlier {a b : Nat} (same : sets.root a = sets.root b) :
      Relation.EqvGen (Linked (calls ++ [.link v w])) a b :=
    ((joined.root_eq_iff a b).mp same).mono fun _ _ linked => linked_append_link.mpr (.inl linked)
  have linked : Relation.EqvGen (Linked (calls ++ [.link v w])) v w :=
    .rel v w (linked_append_link.mpr (.inr ⟨rfl, rfl⟩))
  refine ⟨fun same => ?_, root_eq_of_connected fun a b related => ?_⟩
  · -- An element that moved is connected to the second set through the new link.
    simp only [roots] at same
    split at same <;> rename_i xMoved <;> split at same <;> rename_i yMoved
    · exact earlier (xMoved.trans yMoved.symm)
    · exact (earlier xMoved).trans _ _ _ (linked.trans _ _ _ (earlier same))
    · exact (earlier same).trans _ _ _ ((linked.symm _ _).trans _ _ _ (earlier yMoved.symm))
    · exact earlier same
  · rw [roots, roots]
    rcases linked_append_link.mp related with before | ⟨rfl, rfl⟩
    · rw [(joined.root_eq_iff a b).mpr (.rel a b before)]
    · rw [if_pos rfl]
      split
      · rfl
      · rfl

/-- One call keeps the account of the calls. -/
theorem Joined.perform (joined : Joined count calls sets) {call : Call}
    (within : call.Within count) :
    Joined count (calls ++ [call]) (sets.perform call).2 := by
  cases call with
  | link v w => exact joined.link within.1 within.2
  | compress v => exact joined.compress v

end Step

theorem joined_afterCalls {count : Nat} {calls : List Call}
    (within : ∀ call ∈ calls, call.Within count) :
    Joined count calls (afterCalls count calls) := by
  induction calls using List.reverseRecOn with
  | nil => exact joined_singletons count
  | append_singleton calls call inductionHypothesis =>
      rw [afterCalls, List.foldl_append]
      have earlier := inductionHypothesis fun call member =>
        within call (List.mem_append_left _ member)
      exact earlier.perform (within call (List.mem_append_right _ (List.mem_singleton_self call)))

/-- After any links and compressions of elements, every walk to a root ends; a
link sends the elements of the first set to the root of the second and moves no
others; a compression answers with the root, points the walked path at it and
changes neither a root nor an entry off the path; and two elements have one
root exactly if the links made so far connect them. -/
theorem root_afterCalls {count : Nat} {calls : List Call}
    (within : ∀ call ∈ calls, call.Within count) (made : afterCalls count calls = sets) :
    (∀ v < count, sets.root v < count ∧ ∃ steps, RootAt sets steps v (sets.root v)) ∧
    (∀ v < count, ∀ w < count, ∃ linked, sets.perform (.link v w) = (none, linked) ∧
      ∀ x, linked.root x = if sets.root x = sets.root v then sets.root w else sets.root x) ∧
    (∀ v < count, ∃ compressed,
      sets.perform (.compress v) = (some (sets.root v), compressed) ∧
      (∀ x, compressed.root x = sets.root x) ∧
      (∀ x, sets.OnPath v x → compressed.parentOf x = sets.root v) ∧
      ∀ x, ¬ sets.OnPath v x → compressed.parentOf x = sets.parentOf x) ∧
    ∀ x y, sets.root x = sets.root y ↔ Relation.EqvGen (Linked calls) x y := by
  have joined : Joined count calls sets := made ▸ joined_afterCalls within
  have forest := joined.forest
  obtain rfl := joined.size_eq
  exact ⟨fun v vWithin => ⟨forest.root_lt vWithin, forest.rootAt v⟩,
    fun v vWithin w wWithin => ⟨_, rfl, (forest.link vWithin wWithin).2⟩,
    fun v _ => ⟨_, rfl, forest.root_compress v, forest.parentOf_compress v⟩,
    joined.root_eq_iff⟩

/-- A chain of three links, and a link of a set with itself. -/
def chain : List Call :=
  [.link 0 1, .link 1 2, .link 2 3, .link 3 1]

theorem root_afterCalls_chain :
    (∀ call ∈ chain, call.Within 5) ∧ (afterCalls 5 chain).parent = #[1, 3, 3, 3, 4] ∧
      ((afterCalls 5 chain).perform (.compress 0)).2.parentOf 0 = 3 ∧
      Relation.EqvGen (Linked chain) 0 2 ∧ ¬ Relation.EqvGen (Linked chain) 0 4 := by
  have within : ∀ call ∈ chain, call.Within 5 := by decide
  obtain ⟨-, -, compression, connected⟩ := root_afterCalls within rfl
  obtain ⟨compressed, performed, -, onPath, -⟩ := compression 0 (by decide)
  refine ⟨within, by decide, ?_, (connected 0 2).mp (by decide), ?_⟩
  · rw [performed]
    exact (onPath 0 (onPath_self _ 0)).trans (by decide)
  · exact fun linked => absurd ((connected 0 4).mpr linked) (by decide)

end FlowRegions.DisjointSet
