import FlowRegions.Structuring.Step

/-!
Contract: structuring a control flow graph to the end.

A graph is accepted when its root has one successor, no vertex both branches
and returns, and no vertex branches to the root.  A run then performs steps
until one region is left that leads nowhere, which is the root of the tree.
Every step but a duplication has to lower the weight of the region graph, and
the number of duplications is bounded, so a run ends.  A run that fails leaves
its state behind, and another run goes on from there; a run after a success
returns the same tree.
-/

namespace FlowRegions

/-! ## Accepting a graph -/

def renderIndices (indices : List Nat) : String :=
  "[" ++ " ".intercalate (indices.map toString) ++ "]"

inductive RejectedGraph where
  | tooLarge (vertices : Nat) (limit : Int)
  /-- The root has no successor, several, or the terminator. -/
  | rootSuccessors (successors : List Nat)
  | branchesAndReturns (vertex : Nat) (successors : List Nat)
  | branchesToRoot (vertex : Nat)
deriving DecidableEq, Repr

def RejectedGraph.message : RejectedGraph → String
  | tooLarge vertices limit =>
    s!"{vertices} vertices, limit {limit}: graph too large to structure"
  | rootSuccessors successors =>
    s!"root has successors {renderIndices successors}: invalid control flow graph"
  | branchesAndReturns vertex successors =>
    s!"vertex {vertex} branches to {renderIndices successors} and returns: " ++
      "invalid control flow graph"
  | branchesToRoot vertex =>
    s!"vertex {vertex} branches to the root: invalid control flow graph"

namespace RegionGraph

variable {α : Type}

def leavesOf (input : Digraph α) : RegionGraph :=
  (input.indices.drop 2).foldl
    (fun graph vertex => graph.addVertex { shape := .leaf vertex })
    Digraph.empty

/-- Takes over one vertex of the input: a detached one is detached, the edges
of any other are linked in order. -/
def takeOver (graph : RegionGraph) (entry : Vertex α × Nat) :
    Except RejectedGraph RegionGraph :=
  let (vertex, v) := entry
  let successors := vertex.successors
  if !vertex.isReal then .ok graph
  else if vertex.detached then .ok (graph.isolate v)
  else if 1 < successors.length && successors.contains Digraph.terminator then
    .error (.branchesAndReturns v successors)
  else if successors.contains Digraph.root then .error (.branchesToRoot v)
  else .ok (graph.addEdges v successors)

def ofInput (config : Config) (input : Digraph α) : Except RejectedGraph RegionGraph :=
  let entries := (input.successors Digraph.root).eraseDups
  let vertices := input.liveCount
  if config.maxVertices < vertices then .error (.tooLarge vertices config.maxVertices)
  else
    match entries with
    | [entry] =>
      if entry = Digraph.terminator then .error (.rootSuccessors entries)
      else
        input.vertices.toList.zipIdx.foldlM takeOver
          ((leavesOf input).addEdge Digraph.root entry)
    | _ => .error (.rootSuccessors entries)

end RegionGraph

/-! ## Runs -/

inductive RunError where
  /-- A step other than a duplication left the weight at `after`, from
  `before`. -/
  | noProgress (after before : Nat)
  /-- There was nothing to do. -/
  | stuck (regions : Nat)
  /-- One region is left and the root does not lead to it. -/
  | rootless
deriving DecidableEq, Repr

def RunError.message : RunError → String
  | noProgress after before =>
    s!"region size {after} after {before}: structuring made no progress"
  | stuck regions => s!"no rule applies to {regions} regions: structuring made no progress"
  | rootless => "the root leads to no region"

structure Outcome where
  state : State
  events : List Event
  result : Except RunError Tree
deriving Repr

def Outcome.after (events : List Event) (outcome : Outcome) : Outcome :=
  { outcome with events := events ++ outcome.events }

namespace State

def tree (state : State) (root : Nat) : Tree where
  nodes := state.graph.vertices.map Vertex.payload
  root := root
  unreachable := state.unreachable
  duplicated := state.duplicated

/-- How a run ends here, if it does: a single region is left that leads
nowhere. -/
def finish? (state : State) : Option (Except RunError Tree) :=
  if state.graph.liveCount != 1 then none
  else
    match state.graph.entry? with
    | none => some (.error .rootless)
    | some entry =>
      if (state.graph.branches entry).isEmpty then some (.ok (state.tree entry)) else none

/-- Performs steps up to the next duplication, after which `resume` goes on.
Each step lowers the weight, so fuel above the weight is never used up. -/
def reduce (config : Config) (resume : State → Outcome) : Nat → State → Outcome
  | 0, state => ⟨state, [], .error (.noProgress state.graph.weight state.graph.weight)⟩
  | fuel + 1, state =>
    match state.finish? with
    | some result => ⟨state, [], result⟩
    | none =>
      match state.choose config with
      | none => ⟨state, [], .error (.stuck state.graph.liveCount)⟩
      | some action =>
        let (next, events) := state.perform action
        let before := state.graph.weight
        let after := next.graph.weight
        Outcome.after events <|
          match action with
          | .duplicate _ _ => resume next
          | _ =>
            if after < before then reduce config resume fuel next
            else ⟨next, [], .error (.noProgress after before)⟩

def runWithin (config : Config) : Nat → State → Outcome
  | 0, state =>
    let weight := state.graph.weight
    reduce config (fun next => ⟨next, [], .error (.noProgress weight weight)⟩)
      (weight + 1) state
  | duplications + 1, state =>
    reduce config (runWithin config duplications) (state.graph.weight + 1) state

def run (config : Config) (state : State) : Outcome :=
  runWithin config (config.maxDuplications - state.duplicated.length) state

end State

structure Structuring where
  config : Config
  state : State
  /-- The tree of the run that succeeded. -/
  finished : Option Tree := none

namespace Structuring

def ofGraph {α : Type} (config : Config) (input : Digraph α) :
    Except RejectedGraph Structuring :=
  match RegionGraph.ofInput config input with
  | .error rejected => .error rejected
  | .ok graph => .ok { config, state := { graph } }

/-- Runs to the end, or returns the tree of the run that did; with what was
reported and what is left behind. -/
def run (structuring : Structuring) : Structuring × List Event × Except RunError Tree :=
  match structuring.finished with
  | some tree => (structuring, [], .ok tree)
  | none =>
    let outcome := structuring.state.run structuring.config
    let finished := outcome.result.toOption
    ({ structuring with state := outcome.state, finished }, outcome.events, outcome.result)

end Structuring

end FlowRegions
