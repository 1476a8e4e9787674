import FlowRegions.Interval.Basic

/-!
Contract: the derived sequence of a flow graph and its limit.

Collapsing every interval of a graph into one vertex gives the graph derived
from it.  Repeating this ends at a limit graph, in which every interval is a
single vertex.  The graph is reducible when its limit has one vertex.
-/

namespace FlowRegions

structure DerivedSequence where
  /-- The intervals of the graph the sequence starts from. -/
  first : List Interval
  /-- Each derived graph with its own intervals. -/
  derived : List (Digraph Interval × List Interval)
deriving Repr

def isLimit (intervals : List Interval) : Bool :=
  intervals.all fun interval => interval.size ≤ 1

namespace Digraph

variable {α : Type}

/-- The vertex that stands for the interval at a position: the root for the
first one, which is that of the root, and real vertices for the others. -/
def quotientVertex : Nat → Nat
  | 0 => root
  | position + 1 => terminator + (position + 1)

def addEdgeOnce (graph : Digraph α) (source target : Nat) : Digraph α :=
  if graph.hasEdge source target then graph else graph.addEdge source target

/-- The graph in which each interval is one vertex.

An interval is entered at its header only, so its predecessors are the
intervals that hold the predecessors of its header outside itself. -/
def quotient (graph : Digraph α) (intervals : List Interval) : Digraph Interval :=
  let numbered := intervals.zipIdx
  let vertices := (intervals.drop 1).foldl addVertex empty
  numbered.foldl
    (fun quotient (interval, target) =>
      let outside := (graph.predecessors interval.head).filter fun source =>
        !interval.contains source
      outside.foldl
        (fun quotient source =>
          numbered.foldl
            (fun quotient (other, position) =>
              if other.contains source then
                quotient.addEdgeOnce (quotientVertex position) (quotientVertex target)
              else quotient)
            quotient)
        quotient)
    vertices

/-- The graphs derived from a graph with the given intervals, each with its own
intervals.  A derived graph that is not the limit has fewer intervals than the
graph before, which bounds their number. -/
def derivedFrom : Nat → {β : Type} → Digraph β → List Interval →
    List (Digraph Interval × List Interval)
  | 0, _, _, _ => []
  | fuel + 1, _, graph, intervals =>
    if isLimit intervals then []
    else
      let next := graph.quotient intervals
      let nextIntervals := next.intervals
      (next, nextIntervals) :: derivedFrom fuel next nextIntervals

def derivedSequence (graph : Digraph α) : DerivedSequence :=
  let first := graph.intervals
  ⟨first, derivedFrom graph.size graph first⟩

end Digraph

namespace DerivedSequence

def levels (sequence : DerivedSequence) : List (List Interval) :=
  sequence.first :: sequence.derived.map Prod.snd

def limit (sequence : DerivedSequence) : List Interval :=
  (sequence.derived.getLast?.map Prod.snd).getD sequence.first

end DerivedSequence

namespace Digraph

variable {α : Type}

def limitVertexCount (graph : Digraph α) : Nat :=
  graph.derivedSequence.limit.length

/-- Whether the limit graph is a single vertex. -/
def isReducible (graph : Digraph α) : Bool :=
  graph.limitVertexCount == 1

end Digraph

end FlowRegions
