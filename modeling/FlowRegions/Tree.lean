import FlowRegions.Node

/-!
Contract: the result of structuring, a tree of control nodes over a table of
regions.

A region names its parts by index, so one table holds every region that was
ever built.  The parts of a region, and the target of a jump, are regions
built before it; walks down the table are bounded by its size for that reason.
Regions copied behind a tail node are met more than once.
-/

namespace FlowRegions

/-- Regions by index; synthetic vertices hold no node. -/
abbrev NodeTable := Nat → Option Node

namespace NodeTable

/-- The regions met when walking down from region `i` in preorder, with their
nodes.  Parts of a node for which `enter` fails are passed over. -/
def walk (table : NodeTable) (enter : Node → Bool) : Nat → Nat → List (Nat × Node)
  | 0, _ => []
  | fuel + 1, i =>
    match table i with
    | none => []
    | some node =>
      let below := if enter node then node.children.flatMap (table.walk enter fuel) else []
      (i, node) :: below

def leaves (table : NodeTable) (fuel i : Nat) : List Nat :=
  (table.walk (fun _ => true) fuel i).filterMap fun (_, node) => node.leafVertex?

/-- The input vertex where region `i` starts, looking through jumps. -/
def firstVertex? (table : NodeTable) : Nat → Nat → Option Nat
  | 0, _ => none
  | fuel + 1, i =>
    match table i with
    | none => none
    | some node =>
      match node.shape with
      | .leaf vertex => some vertex
      | .jump target => table.firstVertex? fuel target
      | shape =>
        match shape.children with
        | [] => none
        | first :: _ => table.firstVertex? fuel first

/-- The input vertex whose branch ends region `i`.  Only leaves, sequences and
tails end in a branch of their own. -/
def branchingVertex? (table : NodeTable) : Nat → Nat → Option Nat
  | 0, _ => none
  | fuel + 1, i =>
    match table i with
    | none => none
    | some node =>
      match node.shape with
      | .leaf vertex => some vertex
      | .seq nodes => nodes.getLast?.bind (table.branchingVertex? fuel)
      | .tail body => table.branchingVertex? fuel body
      | _ => none

/-- The condition under which region `i` takes its first branch: the one folded
into it, or else the test of its last leaf. -/
def branchCond? (table : NodeTable) : Nat → Nat → Option Cond
  | 0, _ => none
  | fuel + 1, i =>
    match table i with
    | none => none
    | some node =>
      match node.shape, node.cond with
      | .leaf _, some folded => some folded
      | .seq _, some folded => some folded
      | .leaf vertex, none => some (.test vertex)
      | .seq nodes, none => nodes.getLast?.bind (table.branchCond? fuel)
      | .tail body, _ => table.branchCond? fuel body
      | _, _ => none

def renderEdges (edges : List Nat) : String :=
  "[" ++ " ".intercalate (edges.map toString) ++ "]"

def bracketed (keyword : String) (items : List String) : String :=
  "(" ++ " ".intercalate (keyword :: items) ++ ")"

/-- What is written where a jump leads to no vertex: the largest signed number
of 64 bits, which stands for no vertex. -/
def unresolved : Nat := 9223372036854775807

/-- The text of region `i`: a leaf is its input vertex, any other node is a
bracketed list of its keyword, its condition and its parts.  A region that is
not in the table is written with a question mark.  Each part is written once,
so the work follows the length of the text. -/
def render (table : NodeTable) : Nat → Nat → String
  | 0, i => s!"?{i}"
  | fuel + 1, i =>
    match table i with
    | none => s!"?{i}"
    | some node =>
      match node.shape with
      | .leaf vertex => toString vertex
      | .jump target =>
        let place := (table.firstVertex? fuel target).getD unresolved
        s!"(goto {place})"
      | .switch head arms =>
        let case (arm : Arm Nat) : String :=
          bracketed "case" (renderEdges arm.edges :: (arm.body.map (table.render fuel)).toList)
        bracketed "switch" (table.render fuel head :: arms.map case)
      | .seq _ | .tail _ =>
        bracketed node.kind.keyword (node.children.map (table.render fuel))
      | .ifThen _ _ | .ifElse _ _ _ | .selfLoop _ | .whileLoop _ _ | .doWhile _ _
      | .forLoop _ _ _ _ =>
        bracketed node.kind.keyword
          (Cond.renderOptional node.cond :: node.children.map (table.render fuel))

end NodeTable

/-- A structured flow: a table of regions, the region at the top, the input
vertices that were left out as unreachable and the regions that were
duplicated. -/
structure Tree where
  nodes : Array (Option Node)
  root : Nat
  unreachable : List Nat
  duplicated : List Nat
deriving DecidableEq, Repr

namespace Tree

def table (tree : Tree) : NodeTable :=
  fun i => (tree.nodes[i]?).join

def node? (tree : Tree) : Int → Option Node
  | .ofNat i => tree.table i
  | .negSucc _ => none

def walkWhere (tree : Tree) (enter : Node → Bool) : List (Nat × Node) :=
  tree.table.walk enter tree.nodes.size tree.root

def walk (tree : Tree) : List (Nat × Node) :=
  tree.walkWhere fun _ => true

def leaves (tree : Tree) : List Nat :=
  tree.walk.filterMap fun (_, node) => node.leafVertex?

def jumps (tree : Tree) : List Nat :=
  (tree.walk.filter fun (_, node) => node.isJump).map Prod.fst

/-- Whether the tree holds neither jumps nor tails. -/
def isReducible (tree : Tree) : Bool :=
  tree.walk.all fun (_, node) => node.kind != .jump && node.kind != .tail

def render (tree : Tree) : String :=
  tree.table.render tree.nodes.size tree.root

/-- Whether two trees describe the same flow: they read the same and leave out
and duplicate the same. -/
def agrees (tree other : Tree) : Bool :=
  tree.render == other.render && tree.unreachable == other.unreachable &&
    tree.duplicated == other.duplicated

end Tree

end FlowRegions
