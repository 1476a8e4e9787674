/-!
Contract: a forest of disjoint sets over the numbers below a fixed size.

Each set is a tree of parent entries and is named by the root of its tree.
Linking attaches the root of one set below the root of another; there is no
balancing by rank or size, because the direction of a link carries meaning for
its users.  Compression shortens the walked path and leaves every set as it
was.
-/

namespace FlowRegions

/-- Disjoint sets as trees of parent entries; a root is its own parent. -/
structure DisjointSet where
  parent : Array Nat
deriving DecidableEq, Repr

namespace DisjointSet

def singletons (size : Nat) : DisjointSet :=
  ⟨Array.range size⟩

def size (sets : DisjointSet) : Nat :=
  sets.parent.size

def element? (sets : DisjointSet) : Int → Option Nat
  | .ofNat v => if v < sets.size then some v else none
  | .negSucc _ => none

def parentOf (sets : DisjointSet) (v : Nat) : Nat :=
  sets.parent.getD v v

def isRoot (sets : DisjointSet) (v : Nat) : Bool :=
  sets.parentOf v == v

def setParent (sets : DisjointSet) (v parent : Nat) : DisjointSet :=
  ⟨sets.parent.setIfInBounds v parent⟩

/-- Follows parent entries from `v`, at most `fuel` of them. -/
def climb (sets : DisjointSet) : Nat → Nat → Nat
  | 0, v => v
  | fuel + 1, v => if sets.isRoot v then v else sets.climb fuel (sets.parentOf v)

/-- The element that names the set of `v`.  No path is longer than the number
of elements. -/
def root (sets : DisjointSet) (v : Nat) : Nat :=
  sets.climb sets.size v

/-- Points the elements on the path from `v` at `root`, which ends the path. -/
def shorten (root : Nat) : Nat → DisjointSet → Nat → DisjointSet
  | 0, sets, _ => sets
  | fuel + 1, sets, v =>
    if sets.parentOf v = root then sets
    else shorten root fuel (sets.setParent v root) (sets.parentOf v)

def compress (sets : DisjointSet) (v : Nat) : DisjointSet :=
  shorten (sets.root v) sets.size sets v

/-- Joins two sets: the root of the first is attached to the root of the
second.  Both walked paths are compressed on the way. -/
def link (sets : DisjointSet) (v w : Nat) : DisjointSet :=
  let below := sets.root v
  let compressed := sets.compress v
  let above := compressed.root w
  (compressed.compress w).setParent below above

/-! ## What the operations do to the parent entries -/

@[simp]
theorem size_setParent (sets : DisjointSet) (v parent : Nat) :
    (sets.setParent v parent).size = sets.size := by
  simp [setParent, size]

theorem parentOf_singletons (size v : Nat) : (singletons size).parentOf v = v := by
  by_cases within : v < size <;> simp [parentOf, singletons, Array.getD, within]

theorem parentOf_setParent (sets : DisjointSet) (v parent w : Nat) :
    (sets.setParent v parent).parentOf w =
      if v = w ∧ v < sets.size then parent else sets.parentOf w := by
  simp only [parentOf, setParent, size, Array.getD_eq_getD_getElem?,
    Array.getElem?_setIfInBounds]
  by_cases same : v = w
  · subst same
    by_cases within : v < sets.parent.size <;> simp [within]
  · simp [same]

@[simp]
theorem size_shorten (root fuel : Nat) (sets : DisjointSet) (v : Nat) :
    (shorten root fuel sets v).size = sets.size := by
  induction fuel generalizing sets v with
  | zero => rfl
  | succ fuel inductionHypothesis =>
      simp only [shorten]
      split
      · rfl
      · rw [inductionHypothesis, size_setParent]

@[simp]
theorem size_compress (sets : DisjointSet) (v : Nat) : (sets.compress v).size = sets.size := by
  simp [compress]

@[simp]
theorem size_link (sets : DisjointSet) (v w : Nat) : (sets.link v w).size = sets.size := by
  simp [link]

end DisjointSet

end FlowRegions
