import FlowRegions.Digraph.Basic

/-!
Contract: graphs as they are laid out in memory.

Most vertices have at most two edges in each direction, so a vertex has room for
two of them in itself.  The third moves all of them to a list of their own, where
they stay however many are removed later.  Everything is done at positions: a
target is looked for from the front, overwritten in its place, or taken out with
what follows moved up.

Owns:
- `EdgeStore`, the two forms of an adjacency list, and what they list;
- `StoredGraph`, the primitive and the checked edits of graphs made of them, and
  their adjacency lists and marks.
-/

namespace FlowRegions

/-- Vertex indices in order, with repetitions: up to two of them in slots, or any number
spilled to a list. -/
inductive EdgeStore where
  /-- The slots up to the count hold entries, and those behind hold anything. -/
  | slots (first second : Nat) (count : Fin 3)
  | spilled (entries : List Nat)
deriving DecidableEq, Repr

namespace EdgeStore

def empty : EdgeStore :=
  .slots 0 0 0

def toList : EdgeStore → List Nat
  | .slots first second count => [first, second].take count
  | .spilled entries => entries

def length : EdgeStore → Nat
  | .slots _ _ count => count
  | .spilled entries => entries.length

def get : EdgeStore → Nat → Nat
  | .slots first second _, i => if i = 0 then first else second
  | .spilled entries, i => entries.getD i 0

/-- Adds an entry at the end; the third one spills. -/
def add : EdgeStore → Nat → EdgeStore
  | .slots _ second 0, target => .slots target second 1
  | .slots first _ 1, target => .slots first target 2
  | .slots first second 2, target => .spilled [first, second, target]
  | .spilled entries, target => .spilled (entries ++ [target])

def set : EdgeStore → Nat → Nat → EdgeStore
  | .slots first second count, i, target =>
    if i = 0 then .slots target second count else .slots first target count
  | .spilled entries, i, target => .spilled (entries.set i target)

/-- Takes out the entry at a position below the length.  A spilled store stays
spilled. -/
def deleteAt : EdgeStore → Nat → EdgeStore
  | .slots first second 2, i => .slots (if i = 0 then second else first) second 1
  | .slots first second _, _ => .slots first second 0
  | .spilled entries, i => .spilled (entries.eraseIdx i)

def position? (store : EdgeStore) (target : Nat) : Option Nat :=
  (List.range store.length).find? fun i => store.get i == target

def contains (store : EdgeStore) (target : Nat) : Bool :=
  (store.position? target).isSome

def removeOne (store : EdgeStore) (target : Nat) : EdgeStore :=
  match store.position? target with
  | some i => store.deleteAt i
  | none => store

end EdgeStore

structure StoredVertex (α : Type) where
  payload : Option α
  outgoing : EdgeStore := .empty
  incoming : EdgeStore := .empty
  detached : Bool := false
deriving DecidableEq, Repr

structure StoredGraph (α : Type) where
  vertices : Array (StoredVertex α)
deriving DecidableEq, Repr

namespace StoredGraph

variable {α : Type}

def empty : StoredGraph α :=
  ⟨#[{ payload := none }, { payload := none }]⟩

/-! ## Queries -/

def size (graph : StoredGraph α) : Nat :=
  graph.vertices.size

def index? (graph : StoredGraph α) : Int → Option Nat
  | .ofNat v => if v < graph.size then some v else none
  | .negSucc _ => none

/-- The edges that leave a vertex; an index beyond the graph has none. -/
def outgoing (graph : StoredGraph α) (v : Nat) : EdgeStore :=
  (graph.vertices[v]?.map StoredVertex.outgoing).getD .empty

def incoming (graph : StoredGraph α) (v : Nat) : EdgeStore :=
  (graph.vertices[v]?.map StoredVertex.incoming).getD .empty

def successors (graph : StoredGraph α) (v : Nat) : List Nat :=
  (graph.outgoing v).toList

def predecessors (graph : StoredGraph α) (v : Nat) : List Nat :=
  (graph.incoming v).toList

def marks (graph : StoredGraph α) (v : Nat) : Option (Option α × Bool) :=
  graph.vertices[v]?.map fun vertex => (vertex.payload, vertex.detached)

/-! ## Primitive edits -/

def addVertex (graph : StoredGraph α) (payload : α) : StoredGraph α :=
  ⟨graph.vertices.push { payload := some payload }⟩

def modify (graph : StoredGraph α) (v : Nat) (change : StoredVertex α → StoredVertex α) :
    StoredGraph α :=
  ⟨graph.vertices.modify v change⟩

def modifyOutgoing (graph : StoredGraph α) (v : Nat) (change : EdgeStore → EdgeStore) :
    StoredGraph α :=
  graph.modify v fun vertex => { vertex with outgoing := change vertex.outgoing }

def modifyIncoming (graph : StoredGraph α) (v : Nat) (change : EdgeStore → EdgeStore) :
    StoredGraph α :=
  graph.modify v fun vertex => { vertex with incoming := change vertex.incoming }

/-- Adds an edge, first at its source and then at its target. -/
def link (graph : StoredGraph α) (source target : Nat) : StoredGraph α :=
  (graph.modifyOutgoing source (·.add target)).modifyIncoming target (·.add source)

def unlink (graph : StoredGraph α) (source target : Nat) : StoredGraph α :=
  (graph.modifyOutgoing source (·.removeOne target)).modifyIncoming target (·.removeOne source)

/-- Turns the edge at a position if it leads to `old`. -/
def turnAt (source old new : Nat) (graph : StoredGraph α) (i : Nat) : StoredGraph α :=
  if (graph.outgoing source).get i = old then
    let turned := graph.modifyOutgoing source (·.set i new)
    (turned.modifyIncoming old (·.removeOne source)).modifyIncoming new (·.add source)
  else graph

def retarget (graph : StoredGraph α) (source old new : Nat) : StoredGraph α :=
  (List.range (graph.outgoing source).length).foldl (turnAt source old new) graph

def detach (graph : StoredGraph α) (v : Nat) : StoredGraph α :=
  let unlinkedFromTargets := (graph.successors v).foldl
    (fun graph target =>
      if target = v then graph else graph.modifyIncoming target (·.removeOne v))
    graph
  let unlinkedFromSources := (unlinkedFromTargets.predecessors v).foldl
    (fun graph source =>
      if source = v then graph else graph.modifyOutgoing source (·.removeOne v))
    unlinkedFromTargets
  unlinkedFromSources.modify v fun vertex =>
    { vertex with outgoing := .empty, incoming := .empty, detached := true }

/-! ## Checked edits -/

/-- Performs an edit, or refuses it and changes nothing. -/
def edit (graph : StoredGraph α) (request : Edit) : Except EditError (StoredGraph α) :=
  let refused := Except.error (.outOfRange request graph.size)
  match request with
  | .link source target =>
    match graph.index? source, graph.index? target with
    | some u, some v => .ok (graph.link u v)
    | _, _ => refused
  | .unlink source target =>
    match graph.index? source, graph.index? target with
    | some u, some v =>
      if (graph.outgoing u).contains v then .ok (graph.unlink u v)
      else .error (.noSuchEdge source target)
    | _, _ => refused
  | .retarget source old new =>
    match graph.index? source, graph.index? old, graph.index? new with
    | some u, some v, some w => .ok (graph.retarget u v w)
    | _, _, _ => refused
  | .detach vertex =>
    match graph.index? vertex with
    | some v => .ok (graph.detach v)
    | none => refused

end StoredGraph

end FlowRegions
