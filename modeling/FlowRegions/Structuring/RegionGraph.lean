import FlowRegions.Digraph.Basic
import FlowRegions.Structuring.Config
import FlowRegions.Tree

/-!
Contract: the graph of regions that structuring works on, and what its rules
ask about it.

The vertices are control nodes.  At first there is one leaf for each real
vertex of the input, with the same index; every composite region, jump and
copy is a vertex added behind them, and the regions a composite is made of are
detached.  The vertices ever added are thus the table of regions of the
resulting tree.

A *branch* of a region is an edge that does not go to the terminator; an
*exit* is a distinct target of a branch.  An edge to the terminator means that
the region may return.
-/

namespace FlowRegions

/-- A graph whose vertices are control nodes. -/
abbrev RegionGraph := Digraph Node

namespace RegionGraph

def table (graph : RegionGraph) : NodeTable :=
  graph.payload?

def kind? (graph : RegionGraph) (v : Nat) : Option Kind :=
  (graph.table v).map Node.kind

def isLeaf (graph : RegionGraph) (v : Nat) : Bool :=
  graph.kind? v == some .leaf

def isJump (graph : RegionGraph) (v : Nat) : Bool :=
  graph.kind? v == some .jump

/-- Targets of the edges that do not return, in branch order. -/
def branches (graph : RegionGraph) (v : Nat) : List Nat :=
  (graph.successors v).filter (· != Digraph.terminator)

def exits (graph : RegionGraph) (v : Nat) : List Nat :=
  (graph.branches v).eraseDups

def returns (graph : RegionGraph) (v : Nat) : Bool :=
  graph.hasEdge v Digraph.terminator

def entrants (graph : RegionGraph) (v : Nat) : List Nat :=
  (graph.predecessors v).eraseDups

def entersAlone (graph : RegionGraph) (p v : Nat) : Bool :=
  graph.entrants v == [p]

def entry? (graph : RegionGraph) : Option Nat :=
  (graph.successors Digraph.root).head?

def branchingVertex? (graph : RegionGraph) (v : Nat) : Option Nat :=
  graph.table.branchingVertex? graph.size v

def branchCond? (graph : RegionGraph) (v : Nat) : Option Cond :=
  graph.table.branchCond? graph.size v

def firstVertex? (graph : RegionGraph) (v : Nat) : Option Nat :=
  graph.table.firstVertex? graph.size v

def leaves (graph : RegionGraph) (v : Nat) : List Nat :=
  graph.table.leaves graph.size v

/-- Whether a region ends in a switch: it has more than two branches or its
last leaf is marked as one. -/
def branchesManyWays (graph : RegionGraph) (config : Config) (v : Nat) : Bool :=
  2 < (graph.branches v).length || (graph.branchingVertex? v).any config.multiway

/-- The targets of a two-way branch, the one taken when its condition holds
first. -/
def binaryBranch? (graph : RegionGraph) (config : Config) (v : Nat) : Option (Nat × Nat) :=
  match graph.branches v with
  | [whenTrue, whenFalse] =>
    if graph.branchesManyWays config v then none else some (whenTrue, whenFalse)
  | _ => none

/-- The targets of a two-way branch to two different places, neither of them
the region itself. -/
def fork? (graph : RegionGraph) (config : Config) (v : Nat) : Option (Nat × Nat) :=
  match graph.binaryBranch? config v with
  | some (whenTrue, whenFalse) =>
    if whenTrue = whenFalse || whenTrue = v || whenFalse = v then none
    else some (whenTrue, whenFalse)
  | none => none

def weightyEdges (graph : RegionGraph) (v : Nat) : List Nat :=
  if graph.isJump v then []
  else (graph.branches v).filter fun target => !graph.isJump target

/-- Live regions plus twice the edges between regions that are not jumps.
Every step of structuring but a duplication lowers it. -/
def weight (graph : RegionGraph) : Nat :=
  (graph.liveIndices.map fun v => 1 + 2 * (graph.weightyEdges v).length).foldr (· + ·) 0

end RegionGraph

end FlowRegions
