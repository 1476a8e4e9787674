import FlowRegions.Digraph.Basic

/-!
Contract: depth-first traversals of a graph in either direction.

Owns:
- `Digraph.search`, the recursive traversal, which reports when a vertex is
  entered and when it is left;
- `Preorder` and `Postorder`, cursors that produce one vertex at a time from
  an explicit stack and may be stopped anywhere;
- `Numbering`, the preorder numbers and parents of one complete traversal.

Neighbours are explored in the order of the adjacency lists, so the three
agree on every graph.  A cursor holds the graph it was made from.
-/

namespace FlowRegions

/-! ## Recursive search -/

inductive SearchEvent where
  | enter (vertex : Nat)
  | leave (vertex : Nat)
deriving DecidableEq, Repr

namespace SearchEvent

def entered? : SearchEvent → Option Nat
  | enter vertex => some vertex
  | leave _ => none

def left? : SearchEvent → Option Nat
  | enter _ => none
  | leave vertex => some vertex

end SearchEvent

/-- Vertices met so far, by index.  An index beyond the table counts as met. -/
structure Visited where
  marks : Array Bool
deriving DecidableEq, Repr

namespace Visited

def empty (size : Nat) : Visited :=
  ⟨Array.replicate size false⟩

def contains (visited : Visited) (v : Nat) : Bool :=
  visited.marks.getD v true

def insert (visited : Visited) (v : Nat) : Visited :=
  ⟨visited.marks.setIfInBounds v true⟩

theorem contains_empty (size v : Nat) : (empty size).contains v = decide (size ≤ v) := by
  by_cases within : v < size
  · simp [contains, empty, Array.getD, within]
  · simp [contains, empty, Array.getD, within, Nat.not_lt.mp within]

theorem contains_insert (visited : Visited) (v w : Nat) :
    (visited.insert v).contains w = (visited.contains w || decide (v = w)) := by
  simp only [contains, insert, Array.getD_eq_getD_getElem?, Array.getElem?_setIfInBounds]
  by_cases same : v = w
  · subst same
    by_cases within : v < visited.marks.size <;> simp [within]
  · simp [same]

theorem contains_insert_iff (visited : Visited) (v w : Nat) :
    (visited.insert v).contains w = true ↔ visited.contains w = true ∨ v = w := by
  rw [contains_insert, Bool.or_eq_true, decide_eq_true_eq]

end Visited

/-- A search under way: the vertices met and the events, latest first. -/
structure Search where
  visited : Visited
  trail : List SearchEvent
deriving DecidableEq, Repr

namespace Digraph

variable {α : Type}

/-- Explores everything reachable from `v` that was not met before.  The fuel
bounds the depth of the search, which is at most the number of vertices. -/
def explore (graph : Digraph α) (direction : Direction) :
    Nat → Search → Nat → Search
  | 0, search, _ => search
  | fuel + 1, search, v =>
    let entered : Search := ⟨search.visited.insert v, .enter v :: search.trail⟩
    let explored := (graph.neighbours direction v).foldl
      (fun search next =>
        if search.visited.contains next then search
        else graph.explore direction fuel search next)
      entered
    { explored with trail := .leave v :: explored.trail }

/-- The events of the depth-first search from a vertex, in order.  A start
beyond the graph gives none. -/
def search (graph : Digraph α) (direction : Direction) (start : Nat) :
    List SearchEvent :=
  if start < graph.size then
    let initial : Search := ⟨Visited.empty graph.size, []⟩
    (graph.explore direction graph.size initial start).trail.reverse
  else []

end Digraph

/-! ## Preorder cursor -/

/-- A preorder traversal under way.  The stack holds vertices still to be
looked at, each with the vertex it was found from; some of them may have been
met meanwhile. -/
structure Preorder (α : Type) where
  graph : Digraph α
  direction : Direction
  visited : Visited
  stack : List (Nat × Nat)

namespace Preorder

variable {α : Type}

/-- A cursor at a start vertex, which is its own parent. -/
def start (graph : Digraph α) (direction : Direction) (v : Nat) : Preorder α where
  graph := graph
  direction := direction
  visited := Visited.empty graph.size
  stack := if v < graph.size then [(v, v)] else []

/-- Drops the entries of a stack that were met meanwhile and splits off the
first that was not. -/
def pop? (visited : Visited) :
    List (Nat × Nat) → Option ((Nat × Nat) × List (Nat × Nat))
  | [] => none
  | (v, parent) :: rest =>
    if visited.contains v then pop? visited rest else some ((v, parent), rest)

def next? (cursor : Preorder α) : Option ((Nat × Nat) × Preorder α) :=
  match pop? cursor.visited cursor.stack with
  | none => none
  | some ((v, parent), rest) =>
    let visited := cursor.visited.insert v
    let fresh := (cursor.graph.neighbours cursor.direction v).filter fun next =>
      !visited.contains next
    let found := fresh.map fun next => (next, v)
    some ((v, parent), { cursor with visited, stack := found ++ rest })

def take : Nat → Preorder α → List (Nat × Nat) × Preorder α
  | 0, cursor => ([], cursor)
  | count + 1, cursor =>
    match cursor.next? with
    | none => ([], cursor)
    | some (visit, later) =>
      let (visits, last) := later.take count
      (visit :: visits, last)

/-- Every remaining visit: a traversal meets no vertex twice. -/
def toList (cursor : Preorder α) : List (Nat × Nat) :=
  (cursor.take cursor.graph.size).1

end Preorder

/-! ## Postorder cursor -/

/-- A postorder traversal under way: the path from the start to the vertex
being explored, innermost first, each vertex with its neighbours still to be
looked at. -/
structure Postorder (α : Type) where
  graph : Digraph α
  direction : Direction
  visited : Visited
  path : List (Nat × List Nat)

namespace Postorder

variable {α : Type}

def start (graph : Digraph α) (direction : Direction) (v : Nat) : Postorder α where
  graph := graph
  direction := direction
  visited := (Visited.empty graph.size).insert v
  path := if v < graph.size then [(v, graph.neighbours direction v)] else []

def unmet? (visited : Visited) : List Nat → Option (Nat × List Nat)
  | [] => none
  | next :: rest =>
    if visited.contains next then unmet? visited rest else some (next, rest)

/-- Descends from a vertex along unmet neighbours until one has none, which is
the next vertex in postorder.  The fuel bounds the length of the descent. -/
def descend (graph : Digraph α) (direction : Direction) :
    Nat → Visited → Nat → List Nat → List (Nat × List Nat) →
      Nat × Visited × List (Nat × List Nat)
  | 0, visited, v, _, path => (v, visited, path)
  | fuel + 1, visited, v, remaining, path =>
    match unmet? visited remaining with
    | none => (v, visited, path)
    | some (next, rest) =>
      descend graph direction fuel (visited.insert next) next
        (graph.neighbours direction next) ((v, rest) :: path)

def next? (cursor : Postorder α) : Option (Nat × Postorder α) :=
  match cursor.path with
  | [] => none
  | (v, remaining) :: path =>
    let (finished, visited, path) :=
      descend cursor.graph cursor.direction (cursor.graph.size + 1)
        cursor.visited v remaining path
    some (finished, { cursor with visited, path })

def take : Nat → Postorder α → List Nat × Postorder α
  | 0, cursor => ([], cursor)
  | count + 1, cursor =>
    match cursor.next? with
    | none => ([], cursor)
    | some (v, later) =>
      let (vertices, last) := later.take count
      (v :: vertices, last)

def toList (cursor : Postorder α) : List Nat :=
  (cursor.take cursor.graph.size).1

end Postorder

/-! ## Numbering -/

structure Numbering where
  /-- The vertices met, in preorder. -/
  sequence : Array Nat
  /-- The position of each vertex in `sequence`. -/
  order : Array (Option Nat)
  /-- The parent of each vertex that was met; the start is its own. -/
  parent : Array Nat
deriving DecidableEq, Repr

namespace Numbering

def ofVisits (size : Nat) (visits : List (Nat × Nat)) : Numbering :=
  visits.foldl
    (fun numbering (v, parent) =>
      { sequence := numbering.sequence.push v
        order := numbering.order.setIfInBounds v (some numbering.sequence.size)
        parent := numbering.parent.setIfInBounds v parent })
    ⟨#[], Array.replicate size none, Array.range size⟩

def ofDigraph {α : Type} (graph : Digraph α) (direction : Direction) : Numbering :=
  ofVisits graph.size
    (Preorder.start graph direction (Digraph.start direction)).toList

def order? (numbering : Numbering) (v : Nat) : Option Nat :=
  (numbering.order[v]?).join

def parentOf (numbering : Numbering) (v : Nat) : Nat :=
  numbering.parent.getD v v

/-- The vertex with a preorder number; the root stands in beyond the last. -/
def vertexAt (numbering : Numbering) (number : Nat) : Nat :=
  numbering.sequence.getD number Digraph.root

end Numbering

end FlowRegions
