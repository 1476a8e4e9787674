import FlowRegions.Interval.Derived
import FlowRegions.Structuring.Analysis

/-!
Contract: what is done when no rule applies.

Flow that has no structured form leaves one of three marks, looked for in this
order:

1. a retreating edge into a vertex that does not dominate its source, which is
   a second entry into a loop;
2. a natural loop that no rule could collapse;
3. a join of forward edges.

The first is resolved by duplicating the vertex for its outside predecessors,
when that brings the graph closer to being reducible, and else by cutting the
edge.  In the others an edge is cut.  A cut edge leads to a jump.
-/

namespace FlowRegions

inductive CutReason where
  | irreducible
  | loopExit
  | loopLatch
  | loopJoin
  | backEdge
  | join
deriving DecidableEq, Repr

def CutReason.text : CutReason → String
  | irreducible => "irreducible"
  | loopExit => "loop exit"
  | loopLatch => "loop latch"
  | loopJoin => "loop join"
  | backEdge => "back edge"
  | join => "join"

structure Cut where
  source : Nat
  target : Nat
  reason : CutReason
deriving DecidableEq, Repr

/-- A natural loop: its header, the sources of its back edges by ascending
preorder, and everything that reaches one of them without passing the
header. -/
structure NaturalLoop where
  head : Nat
  latches : List Nat
  body : List Nat
deriving DecidableEq, Repr

namespace RegionGraph

/-! ## Irreducible loops -/

/-- Whether an edge retreats to an ancestor that does not dominate its
source. -/
def entersSideways (analysis : Analysis) (source target : Nat) : Bool :=
  analysis.descends source target && !analysis.dominates target source

/-- Of two such edges, the one to the lesser target in preorder; of edges to
one target, the one from the greater source. -/
def preferEdge (analysis : Analysis) (best : Option (Nat × Nat)) (edge : Nat × Nat) :
    Option (Nat × Nat) :=
  match best with
  | none => some edge
  | some (source, target) =>
    if analysis.order edge.2 < analysis.order target ||
        edge.2 = target && analysis.order source < analysis.order edge.1 then
      some edge
    else best

/-- The retreating edge to resolve first among those into a vertex that does
not dominate their source. -/
def sidewaysEdge? (graph : RegionGraph) (analysis : Analysis) : Option (Nat × Nat) :=
  let edges := analysis.postorder.flatMap fun source =>
    ((graph.exits source).filter (entersSideways analysis source)).map (source, ·)
  edges.foldl (preferEdge analysis) none

/-! ## Duplication -/

/-- Adds an edge from a copy to a successor of what it copies.  A jump is
copied as well, so that every jump keeps a single predecessor. -/
def linkCopy (copy : Nat) (graph : RegionGraph) (target : Nat) : RegionGraph :=
  match graph.table target with
  | some { shape := .jump place, .. } =>
    (graph.addVertex { shape := .jump place }).addEdge copy graph.size
  | _ => graph.addEdge copy target

def giveCopy (graph : RegionGraph) (v : Nat) (outside : List Nat) : RegionGraph :=
  let copy := graph.size
  let added : RegionGraph := graph.addVertex { shape := .tail v }
  let linked := (graph.successors v).foldl (linkCopy copy) added
  outside.foldl (fun graph p => graph.redirect p v copy) linked

def outsiders (graph : RegionGraph) (analysis : Analysis) (v : Nat) : List Nat :=
  (graph.entrants v).filter fun p => !analysis.descends p v

/-- Whether a region may be duplicated for some predecessors: some
duplications are left, the region is small, and the limit graph shrinks. -/
def isDuplicable (config : Config) (duplications : Nat) (graph : RegionGraph)
    (v : Nat) (outside : List Nat) : Bool :=
  duplications < config.maxDuplications &&
    (graph.leaves v).length ≤ config.duplicationSize &&
    (graph.giveCopy v outside).limitVertexCount < graph.limitVertexCount

/-! ## Natural loops -/

/-- Adds to a loop body all that leads to the pending vertices, which belong to
it.  No vertex is pending twice, which bounds their number. -/
def gatherBody (graph : RegionGraph) : Nat → List Nat → List Nat → List Nat
  | 0, body, _ => body
  | _, body, [] => body
  | fuel + 1, body, v :: pending =>
    let fresh := (graph.entrants v).filter fun p =>
      p != Digraph.root && !body.contains p
    graph.gatherBody fuel (body ++ fresh) (fresh ++ pending)

def naturalLoop? (graph : RegionGraph) (analysis : Analysis) (head : Nat) :
    Option NaturalLoop :=
  let latches := (graph.entrants head).filter fun p =>
    p != Digraph.root && analysis.dominates head p
  if latches.isEmpty then none
  else
    let inner := latches.filter (· != head)
    some
      { head
        latches := analysis.ascending latches
        body := graph.gatherBody graph.size (head :: inner) inner }

/-- The natural loop with the smallest body; of equally small ones the first in
postorder. -/
def smallestLoop? (graph : RegionGraph) (analysis : Analysis) : Option NaturalLoop :=
  (analysis.postorder.filterMap (graph.naturalLoop? analysis)).foldl
    (fun best loop =>
      match best with
      | none => some loop
      | some smallest =>
        if loop.body.length < smallest.body.length then some loop else best)
    none

def loopExits (graph : RegionGraph) (analysis : Analysis) (loop : NaturalLoop) :
    List (Nat × Nat) :=
  (analysis.ascending loop.body).flatMap fun source =>
    ((graph.exits source).filter fun target =>
      !loop.body.contains target && !graph.isJump target).map (source, ·)

/-- The source whose exits a loop with exits from several sources keeps: its
header, or else the last of its latches, or else the first source. -/
def keptSource (loop : NaturalLoop) (sources : List Nat) : Option Nat :=
  if sources.contains loop.head then some loop.head
  else (loop.latches.filter sources.contains).getLast?.or sources.head?

def staysReachable (graph : RegionGraph) (analysis : Analysis) (source target : Nat) :
    Bool :=
  (graph.entrants target).any fun p => p != source && !analysis.dominates target p

/-- The exit of a loop that is cut when exits leave it from several sources. -/
def extraExit? (graph : RegionGraph) (analysis : Analysis) (loop : NaturalLoop) :
    Option (Nat × Nat) :=
  let exits := graph.loopExits analysis loop
  let sources := (exits.map Prod.fst).eraseDups
  if sources.length ≤ 1 then none
  else exits.find? fun (source, target) =>
    keptSource loop sources != some source && graph.staysReachable analysis source target

/-! ## Joins -/

/-- The first vertex in postorder, of those that `within` admits, with two or
more forward predecessors; with it the last of them in preorder that is not
its immediate dominator. -/
def joinEdge? (graph : RegionGraph) (analysis : Analysis) (within : Nat → Bool) :
    Option (Nat × Nat) :=
  analysis.postorder.findSome? fun v =>
    if !within v || graph.isJump v then none
    else
      let ahead := (graph.entrants v).filter fun p => !analysis.dominates v p
      if ahead.length < 2 then none
      else
        let source := (analysis.descending ahead).find? fun p =>
          analysis.dominators.idom? v != some p
        source.map (·, v)

/-- The edge of a loop to be cut: an exit it can do without, a latch but the
last, a join inside it, and else its back edge. -/
def loopCut? (graph : RegionGraph) (analysis : Analysis) (loop : NaturalLoop) :
    Option Cut :=
  match graph.extraExit? analysis loop with
  | some (source, target) => some ⟨source, target, .loopExit⟩
  | none =>
    match loop.latches with
    | [] => none
    | latch :: _ :: _ => some ⟨latch, loop.head, .loopLatch⟩
    | [latch] =>
      match graph.joinEdge? analysis fun v => v != loop.head && loop.body.contains v with
      | some (source, target) => some ⟨source, target, .loopJoin⟩
      | none => some ⟨latch, loop.head, .backEdge⟩

end RegionGraph

end FlowRegions
