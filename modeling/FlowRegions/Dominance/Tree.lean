import FlowRegions.Digraph.Traversal
import FlowRegions.DisjointSet

/-!
Contract: dominator trees of a graph in either direction.

A vertex `n` dominates `m` when every path from the start to `m` passes
through `n`.  Going forward the start is the root; going backward it is the
terminator and the relation is post-dominance.

The tree is computed from semidominators.  The semidominator of `w` is the
least preorder number of a vertex from which some path leads to `w` whose
inner vertices are all numbered above `w`.  Vertices are processed in
decreasing preorder; `Workspace.sets` joins every processed vertex to its
depth-first parent, so that the path above a vertex that is already processed
ends at the root of its set.  The immediate dominator of `w` is either its
semidominator or that of a vertex on the path above it, and is settled once
the walk returns to the semidominator.
-/

namespace FlowRegions

/-! ## Walks up a tree of parent entries -/

/-- Whether following `up` from `here` arrives at `goal` within `fuel` steps.
An entry that names itself, or none, ends the walk. -/
def climbsTo {ν : Type} [DecidableEq ν] (up : ν → Option ν) (goal : ν) :
    Nat → ν → Bool
  | 0, here => here = goal
  | fuel + 1, here =>
    here = goal ||
      match up here with
      | none => false
      | some next => next ≠ here && climbsTo up goal fuel next

def entryIn (idom : Array (Option Int)) : Int → Option Int
  | .ofNat v => (idom[v]?).join
  | .negSucc _ => none

/-- Whether `n` dominates `m` according to a list of immediate dominators
addressed by arbitrary integers.  Every integer dominates itself; an integer
outside the list has no dominator but itself. -/
def dominatesIn (idom : Array (Option Int)) (n m : Int) : Bool :=
  climbsTo (entryIn idom) n (idom.size + 1) m

/-! ## The tree -/

structure DominatorTree where
  direction : Direction
  /-- The preorder traversal the tree was computed from. -/
  numbering : Numbering
  /-- The immediate dominator of each vertex that is reachable; the start is
  its own. -/
  idom : Array (Option Nat)
  /-- The vertices each vertex immediately dominates, in preorder. -/
  children : Array (List Nat)
deriving DecidableEq, Repr

namespace DominatorTree

/-- What is known while semidominators are computed. -/
structure Workspace where
  /-- The least preorder number known to semidominate each vertex. -/
  semi : Array Nat
  /-- Processed vertices, joined to their depth-first parents. -/
  sets : DisjointSet
  /-- The vertices that wait at their semidominator. -/
  bucket : Array (List Nat)
  /-- Immediate dominators; one that is deferred names a vertex with the same
  immediate dominator. -/
  idom : Array (Option Nat)
deriving DecidableEq, Repr

namespace Workspace

def start (size : Nat) (numbering : Numbering) : Workspace where
  semi := numbering.order.map fun number => number.getD size
  sets := DisjointSet.singletons size
  bucket := Array.replicate size []
  idom := Array.replicate size none

def semiOf (work : Workspace) (v : Nat) : Nat :=
  work.semi.getD v 0

def waitingAt (work : Workspace) (v : Nat) : List Nat :=
  work.bucket.getD v []

/-- The vertex of least semidominator among `best` and the path from `u` up to
`stop`, which is left out.  Of equal ones the lowest on the path wins. -/
def leastBelow (work : Workspace) (numbering : Numbering) (stop : Nat) :
    Nat → Nat → Nat → Nat
  | 0, _, best => best
  | fuel + 1, u, best =>
    if u = stop then best
    else
      let better := if work.semiOf u < work.semiOf best then u else best
      work.leastBelow numbering stop fuel (numbering.parentOf u) better

/-- The vertex of least semidominator on the processed path above `v`, and the
workspace with that path compressed. -/
def evaluate (work : Workspace) (numbering : Numbering) (v : Nat) :
    Nat × Workspace :=
  let top := work.sets.root v
  let compressed := { work with sets := work.sets.compress v }
  if top = v then (v, compressed)
  else
    (compressed.leastBelow numbering top numbering.sequence.size
      (numbering.parentOf v) v, compressed)

/-- Lowers the semidominator of `w` to what its neighbour `v` gives.  A
neighbour that was not met gives nothing. -/
def lower (numbering : Numbering) (w : Nat) (work : Workspace) (v : Nat) : Workspace :=
  match numbering.order? v with
  | none => work
  | some _ =>
    let (u, work) := work.evaluate numbering v
    { work with semi := work.semi.setIfInBounds w (min (work.semiOf w) (work.semiOf u)) }

/-- Settles or defers the immediate dominator of a vertex `v` that waited at
`parent`. -/
def settle (numbering : Numbering) (parent : Nat) (work : Workspace) (v : Nat) :
    Workspace :=
  let (u, work) := work.evaluate numbering v
  let dominator := if work.semiOf u < work.semiOf v then u else parent
  { work with idom := work.idom.setIfInBounds v (some dominator) }

/-- Processes one vertex: finds its semidominator, lets it wait there, joins it
to its parent and settles what waited at the parent. -/
def process {α : Type} (graph : Digraph α) (direction : Direction)
    (numbering : Numbering) (work : Workspace) (w : Nat) : Workspace :=
  let work := (graph.neighbours direction.reverse w).foldl (lower numbering w) work
  let parent := numbering.parentOf w
  let home := numbering.vertexAt (work.semiOf w)
  let work :=
    { work with
      sets := work.sets.link w parent
      bucket := work.bucket.modify home (· ++ [w]) }
  let work := (work.waitingAt parent).foldl (settle numbering parent) work
  { work with bucket := work.bucket.setIfInBounds parent [] }

/-- Replaces a deferred immediate dominator by that of the vertex it names. -/
def resolve (numbering : Numbering) (work : Workspace) (w : Nat) : Workspace :=
  let deferred := (work.idom[w]?).join
  if deferred = some (numbering.vertexAt (work.semiOf w)) then work
  else
    { work with
      idom := work.idom.setIfInBounds w (deferred.bind fun v => (work.idom[v]?).join) }

end Workspace

/-- Groups the vertices below each immediate dominator, in preorder. -/
def childrenOf (size : Nat) (idom : Array (Option Nat)) (below : List Nat) :
    Array (List Nat) :=
  below.foldl
    (fun children w =>
      match (idom[w]?).join with
      | some dominator => children.modify dominator (· ++ [w])
      | none => children)
    (Array.replicate size [])

def compute {α : Type} (graph : Digraph α) (direction : Direction) : DominatorTree :=
  let numbering := Numbering.ofDigraph graph direction
  let below := numbering.sequence.toList.drop 1
  let processed := below.reverse.foldl
    (Workspace.process graph direction numbering)
    (Workspace.start graph.size numbering)
  let resolved := below.foldl (Workspace.resolve numbering) processed
  let start := Digraph.start direction
  { direction
    numbering
    idom := resolved.idom.setIfInBounds start (some start)
    children := childrenOf graph.size resolved.idom below }

/-! ## Queries -/

def start (tree : DominatorTree) : Nat :=
  Digraph.start tree.direction

def idom? (tree : DominatorTree) (v : Nat) : Option Nat :=
  (tree.idom[v]?).join

def order? (tree : DominatorTree) (v : Nat) : Option Nat :=
  tree.numbering.order? v

def isReachable (tree : DominatorTree) (v : Nat) : Bool :=
  (tree.order? v).isSome

/-- Whether `n` dominates `m`.  Vertices that are not reachable neither
dominate nor are dominated. -/
def dominates (tree : DominatorTree) (n m : Nat) : Bool :=
  tree.isReachable n && tree.isReachable m &&
    climbsTo tree.idom? n (tree.idom.size + 1) m

def dominees (tree : DominatorTree) (v : Nat) : List Nat :=
  tree.children.getD v []

/-! ## Queries by arbitrary integers

A negative integer names no vertex, and neither does one beyond the graph: it
has no immediate dominator and no number, is not reachable, and takes no part in
dominance. -/

def idomAt? (tree : DominatorTree) : Int → Option Nat
  | .ofNat v => tree.idom? v
  | .negSucc _ => none

def orderAt? (tree : DominatorTree) : Int → Option Nat
  | .ofNat v => tree.order? v
  | .negSucc _ => none

def isReachableAt (tree : DominatorTree) (name : Int) : Bool :=
  (tree.orderAt? name).isSome

def entries (tree : DominatorTree) : Array (Option Int) :=
  tree.idom.map (Option.map Int.ofNat)

/-- Whether `n` dominates `m`: both are reachable, and the climb from `m` up the
list arrives at `n`. -/
def dominatesAt (tree : DominatorTree) (n m : Int) : Bool :=
  tree.isReachableAt n && tree.isReachableAt m && dominatesIn tree.entries n m

def domineesAt (tree : DominatorTree) : Int → List Nat
  | .ofNat v => tree.dominees v
  | .negSucc _ => []

end DominatorTree

end FlowRegions
