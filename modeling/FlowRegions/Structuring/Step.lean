import FlowRegions.Structuring.Branches
import FlowRegions.Structuring.Loops
import FlowRegions.Structuring.Residue

/-!
Contract: one step of structuring.

`State.choose` decides what to do and `State.perform` does it, so that every
fact about a run splits into one about choices and one about their effects.
Regions are tried in postorder, inner ones first: loops before compound
conditions, those before other acyclic regions.
-/

namespace FlowRegions

inductive Action where
  /-- Detaches regions that are not reachable. -/
  | prune (regions : List Nat)
  | collapse (collapse : Collapse)
  /-- Gives the outside predecessors of a region a copy of it. -/
  | duplicate (region : Nat) (outside : List Nat)
  | cut (cut : Cut)
deriving DecidableEq, Repr

inductive Event where
  | collapsed (kind : Kind) (region : Nat) (members : List Nat)
  | unreachable (region : Nat)
  | duplicated (region count : Nat)
  | cut (cut : Cut) (region : Nat)
deriving DecidableEq, Repr

structure State where
  graph : RegionGraph
  /-- The input vertices left out as unreachable, ascending. -/
  unreachable : List Nat := []
  /-- The regions duplicated so far. -/
  duplicated : List Nat := []
  /-- The input vertices that jumps lead to. -/
  labels : List Nat := []
deriving DecidableEq, Repr

namespace State

def strays (state : State) (analysis : Analysis) : List Nat :=
  state.graph.liveIndices.filter fun v => !analysis.dominators.isReachable v

/-- The first collapse that some rule finds, inner regions first. -/
def collapse? (config : Config) (state : State) (analysis : Analysis) : Option Collapse :=
  let regions := analysis.postorder
  match regions.findSome? (state.graph.cyclic? config) with
  | some collapse => some collapse
  | none =>
    match regions.findSome? (state.graph.compound? config state.labels) with
    | some collapse => some collapse
    | none => regions.findSome? (state.graph.acyclic? config)

def resolve? (config : Config) (state : State) (analysis : Analysis) : Option Action :=
  let graph := state.graph
  match graph.sidewaysEdge? analysis with
  | some (source, target) =>
    let outside := graph.outsiders analysis target
    if graph.isDuplicable config state.duplicated.length target outside then
      some (.duplicate target outside)
    else some (.cut ⟨source, target, .irreducible⟩)
  | none =>
    match graph.smallestLoop? analysis with
    | some loop => (graph.loopCut? analysis loop).map .cut
    | none =>
      (graph.joinEdge? analysis fun _ => true).map fun (source, target) =>
        .cut ⟨source, target, .join⟩

/-- What to do next; nothing if the graph offers nothing to do. -/
def choose (config : Config) (state : State) : Option Action :=
  let analysis := Analysis.ofGraph state.graph
  match state.strays analysis with
  | [] =>
    match state.collapse? config analysis with
    | some collapse => some (.collapse collapse)
    | none => state.resolve? config analysis
  | strays => some (.prune strays)

/-- Leads the edges from one region to another to a new jump, and records where
the jump goes as a label. -/
def performCut (state : State) (cut : Cut) : State :=
  let graph := state.graph
  let jump := graph.size
  let added := graph.addVertex { shape := .jump cut.target }
  { state with
    graph := added.redirect cut.source cut.target jump
    labels := state.labels ++ (graph.firstVertex? cut.target).toList }

def perform (state : State) : Action → State × List Event
  | .prune regions =>
    let lost := regions.flatMap state.graph.leaves
    ({ state with
        graph := state.graph.isolateAll regions
        unreachable := sortNats (state.unreachable ++ lost) },
      regions.map .unreachable)
  | .collapse collapse =>
    let (region, graph) := state.graph.collapse collapse
    ({ state with graph }, [.collapsed collapse.node.kind region collapse.members])
  | .duplicate region outside =>
    let duplicated := state.duplicated ++ [region]
    ({ state with graph := state.graph.giveCopy region outside, duplicated },
      [.duplicated region duplicated.length])
  | .cut cut => (state.performCut cut, [.cut cut state.graph.size])

end State

end FlowRegions
