import FlowRegions.Digraph.Basic
import FlowRegions.Sorting

/-!
Contract: the partition of a flow graph into intervals.

An interval is a maximal set of vertices with one header in which the header
is the only entry and lies on every cycle.  The interval of a header `h` is
found by adding to `{h}`, as long as there is one, a vertex all of whose
predecessors are in it already.  A vertex that stays outside and has a
predecessor inside becomes a header of its own.  Starting from the root, this
covers every vertex reachable from it.
-/

namespace FlowRegions

/-- A header with the vertices of its interval, in the order they were
added. -/
structure Interval where
  head : Nat
  members : List Nat
deriving DecidableEq, Repr, Inhabited

namespace Interval

variable {α : Type}

def singleton (head : Nat) : Interval :=
  ⟨head, [head]⟩

def contains (interval : Interval) (v : Nat) : Bool :=
  interval.members.contains v

def size (interval : Interval) : Nat :=
  interval.members.length

def nodes (interval : Interval) : List Nat :=
  sortNats interval.members

def render (interval : Interval) : String :=
  let members := ",".intercalate (interval.nodes.map toString)
  s!"I({interval.head}) \x7b{members}\x7d"

def predecessors (interval : Interval) (graph : Digraph α) (v : Nat) : List Nat :=
  ((graph.predecessors v).filter interval.contains).eraseDups

/-- Whether a vertex outside the interval is entered, and only from inside. -/
def absorbs (interval : Interval) (graph : Digraph α) (v : Nat) : Bool :=
  v != Digraph.root && !graph.isDetached v && !interval.contains v &&
    !(graph.predecessors v).isEmpty &&
    (graph.predecessors v).all interval.contains

/-- Adds every vertex the interval absorbs, going once through the graph. -/
def sweep (graph : Digraph α) (interval : Interval) : Interval :=
  graph.indices.foldl
    (fun interval v =>
      if interval.absorbs graph v then
        { interval with members := interval.members ++ [v] }
      else interval)
    interval

/-- Repeats the sweep until it adds nothing.  Every sweep but the last adds a
vertex, which bounds their number. -/
def grow (graph : Digraph α) : Nat → Interval → Interval
  | 0, interval => interval
  | fuel + 1, interval =>
    let swept := interval.sweep graph
    if swept.size = interval.size then interval else grow graph fuel swept

def ofHead (graph : Digraph α) (head : Nat) : Interval :=
  grow graph graph.size (singleton head)

/-- The vertices outside the interval that are entered from inside and are not
known as headers yet, ascending. -/
def frontier (interval : Interval) (graph : Digraph α) (known : List Nat) : List Nat :=
  graph.indices.filter fun v =>
    !graph.isDetached v && !interval.contains v && !known.contains v &&
      (graph.predecessors v).any interval.contains

end Interval

namespace Digraph

variable {α : Type}

/-- The intervals of the pending headers and of those found from them.  The
known headers hold all that were ever pending; none comes up twice, which
bounds the number of intervals. -/
def intervalsFrom (graph : Digraph α) :
    Nat → List Nat → List Nat → List Interval
  | 0, _, _ => []
  | _, _, [] => []
  | fuel + 1, known, head :: pending =>
    let interval := Interval.ofHead graph head
    let fresh := interval.frontier graph known
    interval :: graph.intervalsFrom fuel (known ++ fresh) (pending ++ fresh)

/-- The intervals of a graph, the one headed by the root first. -/
def intervals (graph : Digraph α) : List Interval :=
  graph.intervalsFrom graph.size [root] [root]

end Digraph

end FlowRegions
