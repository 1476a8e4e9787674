import FlowRegions.Structuring.RegionGraph

/-!
Contract: replacing a single-entry region of the graph by one vertex.

A `Collapse` says what to replace and by what; the rules in
`Structuring.Loops` and `Structuring.Branches` find one, and
`RegionGraph.collapse` performs it.
-/

namespace FlowRegions

/-- A single-entry region to be replaced by a composite node. -/
structure Collapse where
  /-- The vertices that make up the region. -/
  members : List Nat
  /-- The member where the region is entered. -/
  entry : Nat
  /-- The node that takes their place. -/
  node : Node
  /-- Where the new vertex leads; `entry` stands for the new vertex itself. -/
  out : List Nat
  /-- Whether the new vertex may return. -/
  returns : Bool
  /-- A part of `node` that is no member; it is added, detached, ahead of the
  new vertex. -/
  part : Option Node := none
deriving DecidableEq, Repr

namespace RegionGraph

def addPart (graph : RegionGraph) (node : Node) : RegionGraph :=
  (graph.addVertex node).isolate graph.size

def redirectOutside (graph : RegionGraph) (members : List Nat) (entry vertex : Nat) :
    RegionGraph :=
  let outside := (graph.entrants entry).filter fun p => !members.contains p
  outside.foldl (fun graph p => graph.redirect p entry vertex) graph

def collapsedTargets (collapse : Collapse) (vertex : Nat) : List Nat :=
  let targets := collapse.out.map fun target =>
    if target = collapse.entry then vertex else target
  if collapse.returns && !collapse.out.contains Digraph.terminator then
    targets ++ [Digraph.terminator]
  else targets

/-- Replaces the members of a region by one vertex, whose index is returned
beside the graph. -/
def collapse (graph : RegionGraph) (collapse : Collapse) : Nat × RegionGraph :=
  let graph : RegionGraph :=
    match collapse.part with
    | some part => graph.addPart part
    | none => graph
  let vertex := graph.size
  let added : RegionGraph := graph.addVertex collapse.node
  let entered : RegionGraph := added.redirectOutside collapse.members collapse.entry vertex
  let linked : RegionGraph := entered.addEdges vertex (collapsedTargets collapse vertex)
  (vertex, linked.isolateAll collapse.members)

end RegionGraph

end FlowRegions
