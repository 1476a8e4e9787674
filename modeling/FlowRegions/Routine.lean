import FlowRegions.Digraph.Basic

/-!
Contract: routines made of basic blocks, and their control flow graphs.

A routine names its entry and its branch targets by block position.  Validation
finds the first thing that names no block or that does not fit together; the
graph of a valid routine has one real vertex for each block, an edge from the
root to the entry and an edge to the terminator from every block that returns.
Statements and conditions are opaque: only how many statements there are, and
whether there is a condition, matters here.
-/

namespace FlowRegions

/-- A basic block over statements `σ` and branch conditions `ε`.

A block with two targets goes to the first when its condition holds.  A block
with a case list branches many ways, one case for each target.  A block
without targets returns. -/
structure Block (σ ε : Type) where
  statements : List σ
  condition : Option ε
  targets : List Int
  cases : Option (List Nat)
deriving DecidableEq, Repr

namespace Block

variable {σ ε : Type}

def returns (block : Block σ ε) : Bool :=
  block.targets.isEmpty

/-- Whether the block branches by a case list, whatever the number of its
targets. -/
def isMultiway (block : Block σ ε) : Bool :=
  block.cases.isSome

def onlyTests (block : Block σ ε) : Bool :=
  block.statements.isEmpty && block.condition.isSome && block.cases.isNone

/-- Whether the block is a single statement that goes on to one place, as the
step of a counting loop does. -/
def isStep (block : Block σ ε) : Bool :=
  block.statements.length == 1 && block.targets.length == 1

end Block

/-- A named list of blocks with an entry.  A block may be missing from its
position. -/
structure Routine (σ ε : Type) where
  name : String
  entry : Int
  blocks : Array (Option (Block σ ε))
deriving DecidableEq, Repr

inductive RoutineFault where
  | noBlocks
  | entryOutOfRange (entry : Int)
  | missingBlock (position : Nat)
  | targetOutOfRange (position : Nat) (target : Int)
  | caseCount (position cases targets : Nat)
deriving DecidableEq, Repr

namespace RoutineFault

def message (name : String) (fault : RoutineFault) : String :=
  let detail := match fault with
    | noBlocks => "no blocks"
    | entryOutOfRange entry => s!"entry {entry} out of range"
    | missingBlock position => s!"block {position} is nil"
    | targetOutOfRange position target => s!"block {position} targets {target}"
    | caseCount position cases targets =>
      s!"block {position} has {cases} cases for {targets} targets"
  s!"{name}: {detail}: invalid routine"

end RoutineFault

/-! ## Blocks and vertices -/

/-- The integer that a sum means in 64-bit two's complement. -/
def wrap64 (n : Int) : Int :=
  n.bmod 0x10000000000000000

/-- The graph vertex of a block position, in 64-bit arithmetic: vertices follow
the two synthetic ones. -/
def vertexOfBlock (position : Int) : Int :=
  wrap64 (position + 2)

/-- The block position of a graph vertex, or -1 for what is no block. -/
def blockOfVertex (vertex : Int) : Int :=
  if vertex < 2 then -1 else vertex - 2

namespace Routine

variable {σ ε : Type}

def names (routine : Routine σ ε) (position : Int) : Bool :=
  0 ≤ position && position < routine.blocks.size

def blockFault? (routine : Routine σ ε) (position : Nat) :
    Option (Block σ ε) → Option RoutineFault
  | none => some (.missingBlock position)
  | some block =>
    match block.targets.find? fun target => !routine.names target with
    | some target => some (.targetOutOfRange position target)
    | none =>
      match block.cases with
      | some cases =>
        if cases.length = block.targets.length then none
        else some (.caseCount position cases.length block.targets.length)
      | none => none

def fault? (routine : Routine σ ε) : Option RoutineFault :=
  if routine.blocks.isEmpty then some .noBlocks
  else if !routine.names routine.entry then some (.entryOutOfRange routine.entry)
  else routine.blocks.toList.zipIdx.findSome? fun (block, position) =>
    routine.blockFault? position block

def vertexAt (position : Nat) : Nat :=
  position + 2

def blockAt? (routine : Routine σ ε) (vertex : Nat) : Option (Block σ ε) :=
  if vertex < 2 then none else (routine.blocks[vertex - 2]?).join

def edgesOf (block : Block σ ε) : List Nat :=
  if block.returns then [Digraph.terminator]
  else block.targets.map fun target => vertexAt target.toNat

/-- The control flow graph of a routine whose blocks are all present and
whose targets are all in range. -/
def flow (routine : Routine σ ε) : Digraph (Block σ ε) :=
  let present := routine.blocks.toList.filterMap id
  let vertices := present.foldl Digraph.addVertex Digraph.empty
  let entered := vertices.addEdge Digraph.root (vertexAt routine.entry.toNat)
  present.zipIdx.foldl
    (fun graph (block, position) => graph.addEdges (vertexAt position) (edgesOf block))
    entered

def graph (routine : Routine σ ε) : Except RoutineFault (Digraph (Block σ ε)) :=
  match routine.fault? with
  | some fault => .error fault
  | none => .ok routine.flow

end Routine

end FlowRegions
