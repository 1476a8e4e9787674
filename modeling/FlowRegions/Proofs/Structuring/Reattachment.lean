import FlowRegions.Proofs.Structuring.Steps

/-!
Contract: which vertices are detached does not matter to the rules.

Edges, payloads and what is read off them are the same when detached vertices are
attached again, and edits do the same to both graphs.  Only where live regions are
counted does it make a difference.  An edge may lead to a detached region, which the
rules then treat like any other: such a graph keeps the shape that region graphs have,
as soon as all its regions are attached again.

Owns:
- `Digraph.reattach`, a graph with all its vertices attached, and `Digraph.Alike`, graphs
  that differ in nothing but which vertices are detached;
- that alike region graphs have the same queries and rules, and that steps keep them alike.
-/

namespace FlowRegions

namespace Digraph

variable {α : Type} {graph other : Digraph α}

def attached (vertex : Vertex α) : Vertex α :=
  { vertex with detached := false }

def reattach (graph : Digraph α) : Digraph α :=
  ⟨graph.vertices.map attached⟩

theorem vertex?_reattach (graph : Digraph α) (v : Nat) :
    graph.reattach.vertex? v = (graph.vertex? v).map attached :=
  Array.getElem?_map

theorem size_reattach (graph : Digraph α) : graph.reattach.size = graph.size :=
  Array.size_map

theorem neighbours_reattach (graph : Digraph α) :
    graph.reattach.neighbours = graph.neighbours := by
  funext direction v
  rw [neighbours, neighbours, vertex?_reattach]
  cases graph.vertex? v with
  | none => rfl
  | some vertex => cases direction <;> rfl

theorem payload?_reattach (graph : Digraph α) : graph.reattach.payload? = graph.payload? := by
  funext v
  rw [payload?, payload?, vertex?_reattach]
  cases graph.vertex? v <;> rfl

/-- Every real vertex is live. -/
theorem isLive_reattach (graph : Digraph α) (v : Nat) :
    graph.reattach.isLive v = (graph.payload? v).isSome := by
  rw [isLive, payload?, vertex?_reattach]
  cases graph.vertex? v with
  | none => rfl
  | some vertex => simp [attached, Vertex.isLive, Vertex.isReal]

theorem isLive_reattach_of_isLive {v : Nat} (live : graph.isLive v = true) :
    graph.reattach.isLive v = true := by
  rw [isLive_reattach]
  exact ((isLive_iff graph v).mp live).1

/-! ## Alike graphs -/

/-- Graphs that differ in nothing but which vertices are detached. -/
def Alike (graph other : Digraph α) : Prop :=
  graph.reattach = other.reattach

theorem alike_reattach (graph : Digraph α) : Alike graph graph.reattach := by
  simp only [Alike, reattach, Array.map_map]
  rfl

/-- A change that makes the same of a vertex whether it is attached or not. -/
theorem reattach_modify {change : Vertex α → Vertex α}
    (respects : ∀ vertex, attached (change vertex) = attached (change (attached vertex)))
    (graph : Digraph α) (v : Nat) :
    (graph.modify v change).reattach = (graph.reattach.modify v change).reattach := by
  have same (w : Nat) : (graph.modify v change).reattach.vertex? w =
      (graph.reattach.modify v change).reattach.vertex? w := by
    rw [vertex?_reattach, vertex?_reattach, vertex?_modify, vertex?_modify, vertex?_reattach]
    cases graph.vertex? w with
    | none => split <;> rfl
    | some vertex =>
        split
        · exact congrArg some (respects vertex)
        · rfl
  exact congrArg mk (Array.ext_getElem? same)

namespace Alike

variable (alike : Alike graph other)
include alike

theorem symm : Alike other graph :=
  Eq.symm alike

theorem size_eq : graph.size = other.size := by
  rw [← size_reattach graph, alike, size_reattach]

theorem neighbours_eq : graph.neighbours = other.neighbours := by
  rw [← neighbours_reattach graph, alike, neighbours_reattach]

theorem successors_eq : graph.successors = other.successors :=
  funext fun v => congrFun (congrFun alike.neighbours_eq .forward) v

theorem predecessors_eq : graph.predecessors = other.predecessors :=
  funext fun v => congrFun (congrFun alike.neighbours_eq .backward) v

theorem payload?_eq : graph.payload? = other.payload? := by
  rw [← payload?_reattach graph, alike, payload?_reattach]

theorem consistent (consistent : graph.Consistent) : other.Consistent where
  atLeastTwo := alike.size_eq ▸ consistent.atLeastTwo
  symmetric := alike.successors_eq ▸ alike.predecessors_eq ▸ consistent.symmetric
  inRange := alike.successors_eq ▸ alike.size_eq ▸ consistent.inRange
  payloads := alike.payload?_eq ▸ alike.size_eq ▸ consistent.payloads

theorem reaches_iff {direction : Direction} {u v : Nat} :
    graph.Reaches direction u v ↔ other.Reaches direction u v := by
  rw [Digraph.reaches_iff, Digraph.reaches_iff]
  unfold Edge
  rw [alike.neighbours_eq]

/-! ## Edits -/

theorem modify {change : Vertex α → Vertex α}
    (respects : ∀ vertex, attached (change vertex) = attached (change (attached vertex)))
    (v : Nat) : Alike (graph.modify v change) (other.modify v change) := by
  rw [Alike, reattach_modify respects, alike, ← reattach_modify respects]

theorem addVertex (payload : α) : Alike (graph.addVertex payload) (other.addVertex payload) := by
  have same : graph.vertices.map attached = other.vertices.map attached :=
    congrArg vertices alike
  simp only [Alike, reattach, Digraph.addVertex, Array.map_push, same]

theorem addEdge (u v : Nat) : Alike (graph.addEdge u v) (other.addEdge u v) :=
  (alike.modify (fun _ => rfl) u).modify (fun _ => rfl) v

theorem foldl {ι : Type} {step : Digraph α → ι → Digraph α}
    (keeps : ∀ {graph other}, Alike graph other → ∀ x, Alike (step graph x) (step other x))
    (items : List ι) : Alike (items.foldl step graph) (items.foldl step other) := by
  induction items generalizing graph other with
  | nil => exact alike
  | cons x rest inductionHypothesis => exact inductionHypothesis (keeps alike x)

theorem addEdges (u : Nat) (targets : List Nat) :
    Alike (graph.addEdges u targets) (other.addEdges u targets) :=
  alike.foldl (fun alike v => alike.addEdge u v) targets

theorem redirect (u old new : Nat) :
    Alike (graph.redirect u old new) (other.redirect u old new) := by
  unfold Digraph.redirect
  dsimp only
  rw [alike.successors_eq]
  induction (other.successors u).count old with
  | zero => exact alike.modify (fun _ => rfl) u
  | succ count inductionHypothesis =>
      exact (inductionHypothesis.modify (fun _ => rfl) old).modify (fun _ => rfl) new

theorem isolate (v : Nat) : Alike (graph.isolate v) (other.isolate v) := by
  unfold Digraph.isolate
  dsimp only
  rw [alike.successors_eq, alike.predecessors_eq]
  refine modify (foldl (foldl alike ?_ _) ?_ _) (fun _ => rfl) v
  · intro graph other alike target
    split
    · exact alike
    · exact alike.modify (fun _ => rfl) target
  · intro graph other alike source
    split
    · exact alike
    · exact alike.modify (fun _ => rfl) source

theorem isolateAll (vertices : List Nat) :
    Alike (graph.isolateAll vertices) (other.isolateAll vertices) :=
  alike.foldl (fun alike v => alike.isolate v) vertices

end Alike

end Digraph

open FlowRegions.Digraph (root terminator Alike)

/-! ## Queries and rules of region graphs -/

namespace RegionGraph

variable {graph other : RegionGraph} (alike : Alike graph other)
include alike

theorem table_alike : graph.table = other.table :=
  alike.payload?_eq

theorem isJump_alike : graph.isJump = other.isJump := by
  funext v
  exact isJump_congr (congrFun (table_alike alike) v)

theorem isLeaf_alike : graph.isLeaf = other.isLeaf := by
  funext v
  rw [isLeaf, isLeaf, kind?, kind?, table_alike alike]

theorem branches_alike : graph.branches = other.branches := by
  funext v
  rw [branches, branches, alike.successors_eq]

theorem exits_alike : graph.exits = other.exits := by
  funext v
  rw [exits, exits, branches_alike alike]

theorem returns_alike : graph.returns = other.returns := by
  funext v
  rw [returns, returns, Digraph.hasEdge, Digraph.hasEdge, alike.successors_eq]

theorem entrants_alike : graph.entrants = other.entrants := by
  funext v
  rw [entrants, entrants, alike.predecessors_eq]

theorem entersAlone_alike : graph.entersAlone = other.entersAlone := by
  funext p v
  rw [entersAlone, entersAlone, entrants_alike alike]

theorem branchCond?_alike : graph.branchCond? = other.branchCond? := by
  funext v
  rw [branchCond?, branchCond?, table_alike alike, alike.size_eq]

theorem branchesManyWays_alike : graph.branchesManyWays = other.branchesManyWays := by
  funext config v
  rw [branchesManyWays, branchesManyWays, branchingVertex?, branchingVertex?,
    branches_alike alike, table_alike alike, alike.size_eq]

theorem binaryBranch?_alike : graph.binaryBranch? = other.binaryBranch? := by
  funext config v
  rw [binaryBranch?, binaryBranch?, branches_alike alike, branchesManyWays_alike alike]

theorem fork?_alike : graph.fork? = other.fork? := by
  funext config v
  rw [fork?, fork?, binaryBranch?_alike alike]

variable (config : Config)

theorem forLoop?_alike : forLoop? config graph = forLoop? config other := by
  funext loop
  rw [forLoop?, forLoop?, steppedBody?, steppedBody?, initializer?, initializer?,
    isLeaf_alike alike, table_alike alike, entrants_alike alike, alike.successors_eq,
    alike.size_eq]

theorem cyclic?_alike : cyclic? config graph = cyclic? config other := by
  funext v
  have selfLoop : selfLoop? config graph v = selfLoop? config other v := by
    rw [selfLoop?, selfLoop?, branches_alike alike, returns_alike alike,
      branchesManyWays_alike alike, branchCond?_alike alike]
  have whileLoop : whileLoop? config graph v = whileLoop? config other v := by
    rw [whileLoop?, whileLoop?, fork?_alike alike, branchCond?_alike alike,
      entersAlone_alike alike, exits_alike alike, returns_alike alike,
      forLoop?_alike alike config]
  have doWhile : doWhile? config graph v = doWhile? config other v := by
    rw [doWhile?, doWhile?, exits_alike alike, entersAlone_alike alike, returns_alike alike,
      binaryBranch?_alike alike, branchCond?_alike alike]
  rw [cyclic?, cyclic?]
  simp only [List.findSome?, selfLoop, whileLoop, doWhile]

theorem compound?_alike (labels : List Nat) :
    compound? config labels graph = compound? config labels other := by
  have foldable (n m : Nat) :
      isFoldable config labels graph n m = isFoldable config labels other n m := by
    rw [isFoldable, isFoldable, table_alike alike, entersAlone_alike alike, returns_alike alike]
  funext n
  rw [compound?, compound?, table_alike alike, fork?_alike alike, branchCond?_alike alike,
    returns_alike alike]
  simp only [foldable]

theorem acyclic?_alike : acyclic? config graph = acyclic? config other := by
  funext v
  have parts (v : Nat) : graph.sequenceParts v = other.sequenceParts v := by
    rw [sequenceParts, sequenceParts, table_alike alike]
  have sequence : sequence? config graph v = sequence? config other v := by
    rw [sequence?, sequence?, exits_alike alike, entersAlone_alike alike, alike.successors_eq,
      returns_alike alike]
    simp only [parts]
  have ifElse : ifElse? config graph v = ifElse? config other v := by
    rw [ifElse?, ifElse?, fork?_alike alike, exits_alike alike, entersAlone_alike alike,
      branchCond?_alike alike, returns_alike alike]
  have ifThen : ifThen? config graph v = ifThen? config other v := by
    rw [ifThen?, ifThen?, fork?_alike alike, branchCond?_alike alike, exits_alike alike,
      entersAlone_alike alike, returns_alike alike]
  have take : SwitchScan.take? graph v = SwitchScan.take? other v := by
    funext scan d
    rw [SwitchScan.take?, SwitchScan.take?, exits_alike alike, returns_alike alike]
  have switch : switch? config graph v = switch? config other v := by
    rw [switch?, switch?, branches_alike alike, entersAlone_alike alike,
      branchesManyWays_alike alike, returns_alike alike, take]
  rw [acyclic?, acyclic?]
  simp only [List.findSome?, sequence, ifElse, ifThen, switch]

end RegionGraph

/-! ## Steps -/

namespace RegionGraph

variable {graph other : RegionGraph}

theorem alike_redirectOutside (alike : Alike graph other) (members : List Nat)
    (entry vertex : Nat) :
    Alike (graph.redirectOutside members entry vertex)
      (other.redirectOutside members entry vertex) := by
  rw [redirectOutside, redirectOutside, entrants_alike alike]
  exact alike.foldl (fun alike p => alike.redirect p entry vertex) _

theorem alike_collapse (alike : Alike graph other) (collapse : Collapse) :
    Alike (graph.collapse collapse).2 (other.collapse collapse).2 := by
  have withPart : Alike (graph.withPart collapse.part) (other.withPart collapse.part) := by
    cases collapse.part with
    | none => exact alike
    | some part =>
        change Alike ((graph.addVertex part).isolate graph.size)
          ((other.addVertex part).isolate other.size)
        rw [alike.size_eq]
        exact (alike.addVertex part).isolate _
  rw [collapse_eq, collapse_eq, withPart.size_eq]
  exact ((alike_redirectOutside (withPart.addVertex _) _ _ _).addEdges _ _).isolateAll _

theorem alike_linkCopy (alike : Alike graph other) (copy target : Nat) :
    Alike (linkCopy copy graph target) (linkCopy copy other target) := by
  rw [linkCopy, linkCopy, table_alike alike, alike.size_eq]
  split
  · exact (alike.addVertex _).addEdge copy _
  · exact alike.addEdge copy target

theorem alike_giveCopy (alike : Alike graph other) (v : Nat) (outside : List Nat) :
    Alike (graph.giveCopy v outside) (other.giveCopy v outside) := by
  rw [giveCopy, giveCopy, alike.size_eq, alike.successors_eq]
  refine Alike.foldl (Alike.foldl (alike.addVertex _) ?_ _) ?_ _
  · exact fun alike target => alike_linkCopy alike _ target
  · exact fun alike p => alike.redirect p v _

end RegionGraph

/-- A region graph keeps its shape when its regions are attached again. -/
theorem RegionGraph.WellFormed.reattach {graph : RegionGraph} (wellFormed : graph.WellFormed) :
    RegionGraph.WellFormed graph.reattach := by
  have alike := Digraph.alike_reattach graph
  have sameEdges := alike.successors_eq
  have sameJumps := isJump_alike alike
  refine
    { consistent := alike.consistent wellFormed.consistent
      entry := ?_
      ends := ?_
      nested := table_alike alike ▸ wellFormed.nested
      jump_sink := ?_
      jump_entrant := ?_ }
  · obtain ⟨e, successors, live, notJump⟩ := wellFormed.entry
    exact ⟨e, sameEdges ▸ successors, Digraph.isLive_reattach_of_isLive live, sameJumps ▸ notJump⟩
  · intro u v edge
    rw [← sameEdges] at edge
    exact ⟨(wellFormed.ends edge).1.imp_right Digraph.isLive_reattach_of_isLive,
      (wellFormed.ends edge).2.imp_right Digraph.isLive_reattach_of_isLive⟩
  · intro j isJump
    rw [← sameJumps] at isJump
    rw [← sameEdges]
    exact wellFormed.jump_sink isJump
  · intro j p q isJump fromP fromQ
    rw [← sameJumps] at isJump
    rw [← sameEdges] at fromP fromQ
    exact wellFormed.jump_entrant isJump fromP fromQ

/-- An action does the same to alike graphs. -/
theorem State.alike_perform {state other : State} (alike : Alike state.graph other.graph)
    (action : Action) : Alike (state.perform action).1.graph (other.perform action).1.graph := by
  cases action with
  | prune regions => exact alike.isolateAll regions
  | collapse collapse => exact RegionGraph.alike_collapse alike collapse
  | duplicate region outside => exact RegionGraph.alike_giveCopy alike region outside
  | cut cut =>
      change Alike ((state.graph.addVertex _).redirect _ _ state.graph.size)
        ((other.graph.addVertex _).redirect _ _ other.graph.size)
      rw [alike.size_eq]
      exact (alike.addVertex _).redirect _ _ _

end FlowRegions
