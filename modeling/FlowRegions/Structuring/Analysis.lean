import FlowRegions.Dominance.Tree
import FlowRegions.Sorting
import FlowRegions.Structuring.RegionGraph

/-!
Contract: what one step of structuring knows about the flow of the region
graph, all of it seen from the root: dominance, ancestry in the depth-first
tree, and the order in which regions are tried.
-/

namespace FlowRegions

structure Analysis where
  dominators : DominatorTree
  /-- The largest preorder number in the depth-first subtree of each vertex. -/
  last : Array Nat
  /-- The regions that are reachable, in postorder. -/
  postorder : List Nat
deriving Repr

namespace Analysis

def raiseParent (numbering : Numbering) (last : Array Nat) (v : Nat) : Array Nat :=
  let parent := numbering.parentOf v
  last.setIfInBounds parent (max (last.getD parent 0) (last.getD v 0))

/-- The largest preorder number in each depth-first subtree: children are met
before their parents in reverse preorder. -/
def subtreeEnds (numbering : Numbering) : Array Nat :=
  (numbering.sequence.toList.drop 1).reverse.foldl (raiseParent numbering)
    (numbering.order.map fun number => number.getD 0)

def ofGraph (graph : RegionGraph) : Analysis :=
  let dominators := DominatorTree.compute graph .forward
  let visits := (Postorder.start graph .forward Digraph.root).toList
  { dominators
    last := subtreeEnds dominators.numbering
    postorder := visits.filter fun v => v != Digraph.root && v != Digraph.terminator }

/-- The preorder number of a vertex; what is unreachable comes last. -/
def order (analysis : Analysis) (v : Nat) : Nat :=
  (analysis.dominators.order? v).getD analysis.last.size

/-- Whether `v` lies in the depth-first subtree of `u`, `u` included. -/
def descends (analysis : Analysis) (v u : Nat) : Bool :=
  match analysis.dominators.order? u, analysis.dominators.order? v with
  | some first, some number => first ≤ number && number ≤ analysis.last.getD u 0
  | _, _ => false

def dominates (analysis : Analysis) (n m : Nat) : Bool :=
  analysis.dominators.dominates n m

def ascending (analysis : Analysis) (vertices : List Nat) : List Nat :=
  sortBy (fun u v => analysis.order u ≤ analysis.order v) vertices

def descending (analysis : Analysis) (vertices : List Nat) : List Nat :=
  sortBy (fun u v => analysis.order v ≤ analysis.order u) vertices

end Analysis

end FlowRegions
