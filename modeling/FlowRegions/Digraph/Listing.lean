import FlowRegions.Digraph.Basic

/-!
Contract: the adjacency listing of a graph, one line for each vertex that is
not detached.
-/

namespace FlowRegions.Digraph

variable {α : Type}

def lineName (v : Nat) : String :=
  if v = root then "root" else if v = terminator then "term" else toString v

def listingLine (vertex : Vertex α) (v : Nat) : String :=
  let targets := vertex.successors.map fun target => s!" {target}"
  s!"{lineName v} ->" ++ String.join targets ++ "\n"

def listing (graph : Digraph α) : String :=
  let lines := graph.vertices.toList.zipIdx.map fun (vertex, v) =>
    if vertex.detached then "" else listingLine vertex v
  String.join lines

end FlowRegions.Digraph
