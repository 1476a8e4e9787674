/-!
Contract: directed multigraphs whose vertices live in one array and are named
by their position in it.

Owns:
- the ordered adjacency lists of every vertex, kept in both directions;
- the primitive edits (add, link, unlink, retarget, detach) on vertices known
  to exist;
- the checked edits, which take an arbitrary integer for a vertex and refuse
  the ones that name none.

Index 0 is the root and index 1 the terminator.  Both are synthetic: they are
present in every graph and carry no payload.  Every other vertex is real and
carries one.  Edges may repeat and their order is part of the graph: the
position of an edge among the successors of a vertex is the number of a
branch.
-/

namespace FlowRegions

inductive Direction where
  | forward
  | backward
deriving DecidableEq, Repr, Inhabited

namespace Direction

def reverse : Direction → Direction
  | forward => backward
  | backward => forward

end Direction

/-- One vertex with its adjacency lists.

A vertex without payload is synthetic.  A detached vertex keeps its payload
and its index but no longer takes part in the graph. -/
structure Vertex (α : Type) where
  payload : Option α
  successors : List Nat := []
  predecessors : List Nat := []
  detached : Bool := false
deriving DecidableEq, Repr, Inhabited

namespace Vertex

variable {α : Type}

def isReal (vertex : Vertex α) : Bool :=
  vertex.payload.isSome

def isLive (vertex : Vertex α) : Bool :=
  vertex.isReal && !vertex.detached

def neighbours (vertex : Vertex α) : Direction → List Nat
  | .forward => vertex.successors
  | .backward => vertex.predecessors

end Vertex

/-- A directed multigraph over payloads of type `α`. -/
structure Digraph (α : Type) where
  vertices : Array (Vertex α)
deriving DecidableEq, Repr, Inhabited

namespace Digraph

variable {α : Type}

/-- The synthetic vertex where every flow starts. -/
def root : Nat := 0

/-- The synthetic vertex where every flow ends. -/
def terminator : Nat := 1

/-- The vertex a traversal starts from. -/
def start : Direction → Nat
  | .forward => root
  | .backward => terminator

/-- The graph that holds the root and the terminator only. -/
def empty : Digraph α :=
  ⟨#[{ payload := none }, { payload := none }]⟩

/-! ## Queries -/

/-- Number of vertices ever added, synthetic and detached ones included. -/
def size (graph : Digraph α) : Nat :=
  graph.vertices.size

def indices (graph : Digraph α) : List Nat :=
  List.range graph.size

def vertex? (graph : Digraph α) (v : Nat) : Option (Vertex α) :=
  graph.vertices[v]?

/-- The index an arbitrary integer names, if it names a vertex. -/
def index? (graph : Digraph α) : Int → Option Nat
  | .ofNat v => if v < graph.size then some v else none
  | .negSucc _ => none

def payload? (graph : Digraph α) (v : Nat) : Option α :=
  (graph.vertex? v).bind Vertex.payload

/-- Adjacent vertices in a direction; an index beyond the graph has none. -/
def neighbours (graph : Digraph α) (direction : Direction) (v : Nat) : List Nat :=
  match graph.vertex? v with
  | some vertex => vertex.neighbours direction
  | none => []

def successors (graph : Digraph α) (v : Nat) : List Nat :=
  graph.neighbours .forward v

def predecessors (graph : Digraph α) (v : Nat) : List Nat :=
  graph.neighbours .backward v

def hasEdge (graph : Digraph α) (source target : Nat) : Bool :=
  (graph.successors source).contains target

def isLive (graph : Digraph α) (v : Nat) : Bool :=
  (graph.vertex? v).any Vertex.isLive

def isDetached (graph : Digraph α) (v : Nat) : Bool :=
  (graph.vertex? v).any Vertex.detached

def liveIndices (graph : Digraph α) : List Nat :=
  graph.indices.filter graph.isLive

def liveCount (graph : Digraph α) : Nat :=
  graph.vertices.countP Vertex.isLive

/-! ## Primitive edits -/

/-- Adds a real vertex; its index is the size of the graph before. -/
def addVertex (graph : Digraph α) (payload : α) : Digraph α :=
  ⟨graph.vertices.push { payload := some payload }⟩

/-- Rewrites one vertex; an index beyond the graph changes nothing. -/
def modify (graph : Digraph α) (v : Nat) (change : Vertex α → Vertex α) :
    Digraph α :=
  ⟨graph.vertices.modify v change⟩

def appendPredecessor (graph : Digraph α) (source target : Nat) : Digraph α :=
  graph.modify target fun vertex =>
    { vertex with predecessors := vertex.predecessors ++ [source] }

def erasePredecessor (graph : Digraph α) (source target : Nat) : Digraph α :=
  graph.modify target fun vertex =>
    { vertex with predecessors := vertex.predecessors.erase source }

def eraseSuccessor (graph : Digraph α) (source target : Nat) : Digraph α :=
  graph.modify source fun vertex =>
    { vertex with successors := vertex.successors.erase target }

def addEdge (graph : Digraph α) (source target : Nat) : Digraph α :=
  let leaving := graph.modify source fun vertex =>
    { vertex with successors := vertex.successors ++ [target] }
  leaving.appendPredecessor source target

def addEdges (graph : Digraph α) (source : Nat) (targets : List Nat) : Digraph α :=
  targets.foldl (fun graph target => graph.addEdge source target) graph

def removeEdge (graph : Digraph α) (source target : Nat) : Digraph α :=
  (graph.eraseSuccessor source target).erasePredecessor source target

/-- Turns every edge `source → old` into `source → new`, each in its place
among the edges that leave `source`.

The record of each turned edge moves from `old` to the end of those at `new`,
also when both are the same vertex. -/
def redirect (graph : Digraph α) (source old new : Nat) : Digraph α :=
  let turned := graph.modify source fun vertex =>
    { vertex with
      successors := vertex.successors.map fun target =>
        if target = old then new else target }
  Nat.repeat
    (fun graph =>
      (graph.erasePredecessor source old).appendPredecessor source new)
    ((graph.successors source).count old) turned

/-- Removes every edge that touches a vertex and marks it detached. -/
def isolate (graph : Digraph α) (v : Nat) : Digraph α :=
  let unlinkedFromTargets := (graph.successors v).foldl
    (fun graph target =>
      if target = v then graph else graph.erasePredecessor v target)
    graph
  let unlinkedFromSources := (graph.predecessors v).foldl
    (fun graph source =>
      if source = v then graph else graph.eraseSuccessor source v)
    unlinkedFromTargets
  unlinkedFromSources.modify v fun vertex =>
    { vertex with successors := [], predecessors := [], detached := true }

def isolateAll (graph : Digraph α) (vertices : List Nat) : Digraph α :=
  vertices.foldl isolate graph

end Digraph

/-! ## Checked edits -/

/-- An edit addressed by arbitrary integers. -/
inductive Edit where
  | link (source target : Int)
  | unlink (source target : Int)
  | retarget (source old new : Int)
  | detach (vertex : Int)
deriving DecidableEq, Repr

def Edit.text : Edit → String
  | .link source target => s!"link {source} -> {target}"
  | .unlink source target => s!"unlink {source} -> {target}"
  | .retarget source old new => s!"retarget {source} -> {old} to {new}"
  | .detach vertex => s!"detach {vertex}"

inductive EditError where
  /-- Some index of the edit names no vertex of a graph of this size. -/
  | outOfRange (edit : Edit) (size : Nat)
  /-- There is no edge to remove. -/
  | noSuchEdge (source target : Int)
deriving DecidableEq, Repr

def EditError.message : EditError → String
  | .outOfRange edit size => s!"{edit.text} (size {size}): vertex index out of range"
  | .noSuchEdge source target => s!"{(Edit.unlink source target).text}: no such edge"

/-- Performs an edit, or refuses it and changes nothing. -/
def Digraph.edit {α : Type} (graph : Digraph α) (request : Edit) :
    Except EditError (Digraph α) :=
  let refused := Except.error (.outOfRange request graph.size)
  match request with
  | .link source target =>
    match graph.index? source, graph.index? target with
    | some u, some v => .ok (graph.addEdge u v)
    | _, _ => refused
  | .unlink source target =>
    match graph.index? source, graph.index? target with
    | some u, some v =>
      if graph.hasEdge u v then .ok (graph.removeEdge u v)
      else .error (.noSuchEdge source target)
    | _, _ => refused
  | .retarget source old new =>
    match graph.index? source, graph.index? old, graph.index? new with
    | some u, some v, some w => .ok (graph.redirect u v w)
    | _, _, _ => refused
  | .detach vertex =>
    match graph.index? vertex with
    | some v => .ok (graph.isolate v)
    | none => refused

end FlowRegions
