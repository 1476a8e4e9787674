import FlowRegions.Digraph.Basic
import FlowRegions.Text.Quoted

/-!
Contract: graphs drawn by means of a library of multigraphs.

Vertices that are not detached become nodes, and the edges that leave them
become lines.  An edge to a detached vertex becomes a line to the blank node,
which shares its number with the root.  The library puts the multigraph into
the DOT language.

Owns:
- `DotNode`, a vertex as the library sees it;
- `DotLibrary`, the calls that are made to the library;
- `Digraph.drawIn` and `Digraph.dotWith`, which make them.

Does not own: what the library does.  `DotLibrary` has no laws, and any library
will do.
-/

namespace FlowRegions

/-! ## Nodes -/

inductive DotShape where
  | point
  | doublecircle
  | box
deriving DecidableEq, Repr

def DotShape.text : DotShape → String
  | point => "point"
  | doublecircle => "doublecircle"
  | box => "box"

/-- A node, told from others by its number.  The defaults are those of the blank
node. -/
structure DotNode where
  id : Nat := 0
  label : String := ""
  shape : Option DotShape := none
deriving DecidableEq, Repr

namespace DotNode

def nameOf (id : Nat) : String :=
  "v" ++ toString id

def name (node : DotNode) : String :=
  nameOf node.id

def attributes (node : DotNode) : List (String × String) :=
  ("label", Text.quote node.label) ::
    (node.shape.map fun shape => ("shape", shape.text)).toList

end DotNode

/-! ## Libraries -/

/-- What is called of a library of multigraphs.  A line is made before it is
set. -/
structure DotLibrary where
  Multigraph : Type
  Line : Type
  empty : Multigraph
  addNode : Multigraph → DotNode → Multigraph
  newLine : Multigraph → DotNode → DotNode → Line
  setLine : Multigraph → Line → Multigraph
  /-- The nodes of a multigraph, in any order. -/
  nodes : Multigraph → List DotNode
  /-- The numbers at both ends of each line, in any order. -/
  lines : Multigraph → List (Nat × Nat)
  /-- The text of a multigraph under a name, or why there is none. -/
  marshal : Multigraph → String → Except String String

def DotLibrary.connect (library : DotLibrary) (drawing : library.Multigraph)
    (source target : DotNode) : library.Multigraph :=
  library.setLine drawing (library.newLine drawing source target)

namespace Digraph

variable {α : Type}

def dotNode? (graph : Digraph α) (label : Nat → String) (v : Nat) : Option DotNode :=
  match graph.vertex? v with
  | none => none
  | some vertex =>
    if vertex.detached then none
    else if v = root then some ⟨v, "root", some .point⟩
    else if v = terminator then some ⟨v, "term", some .doublecircle⟩
    else some ⟨v, label v, some .box⟩

/-- The node that stands for a vertex; the blank node stands for a detached
one. -/
def dotNode (graph : Digraph α) (label : Nat → String) (v : Nat) : DotNode :=
  (graph.dotNode? label v).getD {}

def drawn (graph : Digraph α) : List Nat :=
  graph.indices.filter fun v => !graph.isDetached v

def drawIn (library : DotLibrary) (graph : Digraph α) (label : Nat → String) :
    library.Multigraph :=
  let nodes := graph.drawn.foldl
    (fun drawing v => library.addNode drawing (graph.dotNode label v)) library.empty
  graph.drawn.foldl
    (fun drawing u =>
      (graph.successors u).foldl
        (fun drawing t =>
          library.connect drawing (graph.dotNode label u) (graph.dotNode label t))
        drawing)
    nodes

/-- The text of a graph in the DOT language.  Without labels, real vertices are
labelled with their numbers. -/
def dotWith (library : DotLibrary) (graph : Digraph α) (name : String)
    (label? : Option (Nat → String)) : Except String String :=
  (library.marshal (graph.drawIn library (label?.getD toString)) name).mapError
    fun cause => "marshal graph " ++ Text.quote name ++ ": " ++ cause

end Digraph

end FlowRegions
