import FlowRegions.Proofs.Renaming.Traversal
import FlowRegions.Proofs.Structuring.Coverage

/-!
Contract: what the rules ask about a region graph, under new names.

Regions are named like vertices, and the nodes of a graph under new names mention
the new names.  Every query of a region then has the renamed answer: its edges,
its predecessors up to order, and what is found by walking down from it.

Owns:
- `Node.relabel`, with what conditions and nodes are under new names;
- `Config.Agrees`, configurations that say the same of the vertices that a run
  keeps;
- `RegionGraph.Twins`, two region graphs that differ in names only, and the
  queries of one in terms of those of the other.
-/

namespace FlowRegions

open FlowRegions.Digraph (root terminator)

/-! ## Lists of names -/

section Lists

variable {name : Nat → Nat} (injective : Function.Injective name)
include injective

theorem beq_name (u v : Nat) : (name u == name v) = (u == v) := by
  rw [beq_eq_decide, beq_eq_decide, decide_eq_decide, injective.eq_iff]

theorem bne_name (u v : Nat) : (name u != name v) = (u != v) := by
  rw [bne, bne, beq_name injective]

theorem contains_map_name (items : List Nat) (v : Nat) :
    (items.map name).contains (name v) = items.contains v := by
  rw [Bool.eq_iff_iff, List.contains_iff_mem, List.contains_iff_mem,
    List.mem_map_of_injective injective]

theorem filter_ne_map_name (items : List Nat) (v : Nat) :
    (items.map name).filter (· != name v) = (items.filter (· != v)).map name := by
  rw [List.filter_map]
  simp only [Function.comp_def, bne_name injective]

theorem eraseDups_map_name (items : List Nat) :
    (items.map name).eraseDups = items.eraseDups.map name := by
  induction length : items.length using Nat.strongRecOn generalizing items with
  | ind n inductionHypothesis =>
      cases items with
      | nil => rfl
      | cons x rest =>
          have shorter : (rest.filter fun y => !y == x).length < n := by
            have := List.length_filter_le (fun y => !y == x) rest
            rw [← length, List.length_cons]
            omega
          have same : (rest.map name).filter (fun y => !y == name x) =
              (rest.filter fun y => !y == x).map name :=
            filter_ne_map_name injective rest x
          rw [List.map_cons, List.eraseDups_cons, List.eraseDups_cons, same,
            inductionHypothesis _ shorter _ rfl, List.map_cons]

theorem beq_singleton_map_name (items : List Nat) (v : Nat) :
    (items.map name == [name v]) = (items == [v]) := by
  rw [Bool.eq_iff_iff, beq_iff_eq, beq_iff_eq]
  exact (injective.list_map.eq_iff (a := items) (b := [v]))

theorem map_name_eq_some (found : Option Nat) (v : Nat) :
    found.map name = some (name v) ↔ found = some v := by
  cases found with
  | none => simp
  | some u => simp [injective.eq_iff]

end Lists

/-! ## Nodes under new names -/

def Cond.relabel (vertex : Nat → Nat) : Cond → Cond
  | test tested => test (vertex tested)
  | not operand => not (operand.relabel vertex)
  | and left right => and (left.relabel vertex) (right.relabel vertex)
  | or left right => or (left.relabel vertex) (right.relabel vertex)

def Arm.relabel (region : Nat → Nat) (arm : Arm Nat) : Arm Nat :=
  { arm with body := arm.body.map region }

def Shape.relabel (vertex region : Nat → Nat) : Shape Nat → Shape Nat
  | leaf found => leaf (vertex found)
  | seq nodes => seq (nodes.map region)
  | ifThen head thenArm => ifThen (region head) (region thenArm)
  | ifElse head thenArm elseArm => ifElse (region head) (region thenArm) (region elseArm)
  | switch head arms => switch (region head) (arms.map (Arm.relabel region))
  | selfLoop body => selfLoop (region body)
  | whileLoop head body => whileLoop (region head) (region body)
  | doWhile body latch => doWhile (region body) (region latch)
  | forLoop init head body step =>
    forLoop (region init) (region head) (region body) (region step)
  | jump target => jump (region target)
  | tail body => tail (region body)

def Node.relabel (vertex region : Nat → Nat) (node : Node) : Node where
  shape := node.shape.relabel vertex region
  cond := node.cond.map (Cond.relabel vertex)

def Collapse.relabel (name : Nat → Nat) (collapse : Collapse) : Collapse where
  members := collapse.members.map name
  entry := name collapse.entry
  node := collapse.node.relabel name name
  out := collapse.out.map name
  returns := collapse.returns
  part := collapse.part.map (Node.relabel name name)

section Relabel

variable {vertex region : Nat → Nat}

theorem Cond.negate_relabel (cond : Cond) :
    (cond.relabel vertex).negate = cond.negate.relabel vertex := by
  cases cond <;> rfl

theorem Cond.map_negate_relabel (cond : Option Cond) :
    (cond.map (relabel vertex)).map negate = (cond.map negate).map (relabel vertex) := by
  cases cond with
  | none => rfl
  | some cond => exact congrArg some cond.negate_relabel

theorem Node.kind_relabel (node : Node) : (node.relabel vertex region).kind = node.kind := by
  obtain ⟨shape, cond⟩ := node
  cases shape <;> rfl

theorem Node.leafVertex?_relabel (node : Node) :
    (node.relabel vertex region).leafVertex? = node.leafVertex?.map vertex := by
  obtain ⟨shape, cond⟩ := node
  cases shape <;> rfl

theorem Node.leafVertices_relabel (node : Node) :
    (node.relabel vertex region).leafVertices = node.leafVertices.map vertex := by
  rw [leafVertices, leafVertices, leafVertex?_relabel, Option.toList_map]

theorem Node.children_relabel (node : Node) :
    (node.relabel vertex region).children = node.children.map region := by
  obtain ⟨shape, cond⟩ := node
  cases shape with
  | switch head arms =>
      show region head :: (arms.map (Arm.relabel region)).filterMap Arm.body =
        region head :: (arms.filterMap Arm.body).map region
      rw [List.filterMap_map, List.map_filterMap]
      rfl
  | _ => rfl

end Relabel

/-! ## Walks down a table -/

namespace NodeTable

/-- A walk finds the same under new names when each of its levels does. -/
theorem walk_relabel {β : Type} (level : Level β) {walk : NodeTable → Nat → Nat → β}
    (unfolds : ∀ table fuel i, walk table (fuel + 1) i = level.at? (table i) (walk table fuel))
    {name : Nat → Nat} {turn : β → β}
    (absent : ∀ f f', level.at? none f' = turn (level.at? none f))
    (follows : ∀ (node : Node) (f f' : Nat → β), (∀ r ∈ node.references, f' (name r) = turn (f r)) →
      level.at? (some (node.relabel name name)) f' = turn (level.at? (some node) f))
    {table table' : NodeTable} (nested : table.Nested) (nested' : table'.Nested)
    {size size' : Nat} (within : ∀ v, name v < size' ↔ v < size) (positive : 0 < size)
    (positive' : 0 < size') (same : ∀ v, table' (name v) = (table v).map (Node.relabel name name))
    (beyond : ∀ v, size ≤ v → table v = none) (v : Nat) :
    walk table' size' (name v) = turn (walk table size v) := by
  induction v using Nat.strongRecOn with
  | ind v inductionHypothesis =>
      cases found : table v with
      | none =>
          obtain ⟨fuel, rfl⟩ : ∃ less, size = less + 1 := ⟨size - 1, by omega⟩
          obtain ⟨fuel', rfl⟩ : ∃ less, size' = less + 1 := ⟨size' - 1, by omega⟩
          rw [unfolds, unfolds, same, found]
          exact absent _ _
      | some node =>
          have below : v < size := by
            by_contra outside
            rw [beyond v (Nat.le_of_not_lt outside)] at found
            cases found
          rw [walk_unfold level unfolds nested below,
            walk_unfold level unfolds nested' ((within v).mpr below), same, found]
          exact follows node _ _ fun r refers => inductionHypothesis r (nested.below found r refers)

theorem bind_getLast?_map {β : Type} {nodes : List Nat} {name : Nat → Nat} {turn : β → β}
    {f f' : Nat → Option β} (same : ∀ r ∈ nodes, f' (name r) = (f r).map turn) :
    (nodes.map name).getLast?.bind f' = (nodes.getLast?.bind f).map turn := by
  rw [List.getLast?_map]
  cases last : nodes.getLast? with
  | none => rfl
  | some r => exact same r (List.mem_of_getLast? last)

theorem branchingLevel_relabel {name : Nat → Nat} (node : Node) (f f' : Nat → Option Nat)
    (same : ∀ r ∈ node.references, f' (name r) = (f r).map name) :
    branchingLevel.at? (some (node.relabel name name)) f' =
      (branchingLevel.at? (some node) f).map name := by
  obtain ⟨shape, cond⟩ := node
  cases shape with
  | seq nodes => exact bind_getLast?_map same
  | tail body => exact same body (by simp [Node.references, Shape.children])
  | _ => rfl

theorem condLevel_relabel {name : Nat → Nat} (node : Node) (f f' : Nat → Option Cond)
    (same : ∀ r ∈ node.references, f' (name r) = (f r).map (Cond.relabel name)) :
    condLevel.at? (some (node.relabel name name)) f' =
      (condLevel.at? (some node) f).map (Cond.relabel name) := by
  obtain ⟨shape, cond⟩ := node
  cases shape with
  | seq nodes =>
      cases cond with
      | none => exact bind_getLast?_map same
      | some folded => rfl
  | tail body =>
      have below := same body (by simp [Node.references, Shape.children])
      cases cond <;> exact below
  | _ => cases cond <;> rfl

theorem firstLevel_relabel {vertex region : Nat → Nat} (node : Node) (f f' : Nat → Option Nat)
    (same : ∀ r ∈ node.references, f' (region r) = (f r).map vertex) :
    firstLevel.at? (some (node.relabel vertex region)) f' =
      (firstLevel.at? (some node) f).map vertex := by
  obtain ⟨shape, cond⟩ := node
  cases shape with
  | leaf vertex => rfl
  | jump target => exact same target (by simp [Node.references])
  | seq nodes =>
      cases nodes with
      | nil => rfl
      | cons first rest => exact same first (by simp [Node.references, Shape.children])
  | ifThen head _ | ifElse head _ _ | switch head _ | selfLoop head | whileLoop head _
  | doWhile head _ | forLoop head _ _ _ | tail head =>
      exact same head (by simp [Node.references, Shape.children])

theorem gatherLevel_relabel {name : Nat → Nat} (node : Node) (f f' : Nat → List Nat)
    (same : ∀ r ∈ node.references, f' (name r) = (f r).map name) :
    (gatherLevel (fun _ => true) Node.leafVertices).at? (some (node.relabel name name)) f' =
      ((gatherLevel (fun _ => true) Node.leafVertices).at? (some node) f).map name := by
  have below : (node.children.map name).flatMap f' = (node.children.flatMap f).map name := by
    rw [List.flatMap_map, List.map_flatMap]
    exact List.flatMap_congr fun r isChild => same r (Node.mem_references_of_mem_children isChild)
  dsimp only [gatherLevel]
  rw [if_pos rfl, if_pos rfl, Node.children_relabel, below, Node.leafVertices_relabel,
    List.map_append]

end NodeTable

/-! ## Configurations -/

/-- Configurations with the same limits on duplications, that say the same of
the vertices kept under their new names. -/
structure Config.Agrees (name : Nat → Nat) (kept : Nat → Prop) (config other : Config) :
    Prop where
  maxDuplications : other.maxDuplications = config.maxDuplications
  duplicationSize : other.duplicationSize = config.duplicationSize
  forLoops : other.forLoops = config.forLoops
  multiway : ∀ {w}, kept w → other.multiway (name w) = config.multiway w
  onlyTests : ∀ {w}, kept w → other.onlyTests (name w) = config.onlyTests w
  isStep : ∀ {w}, kept w → other.isStep (name w) = config.isStep w

namespace RegionGraph

/-- Two region graphs of runs that differ in the names of vertices and regions
only, as far as the vertices are kept. -/
structure Twins (name : Nat → Nat) (kept : Nat → Prop) (graph other : RegionGraph) : Prop where
  renamed : Digraph.Renamed name (Node.relabel name name) graph other
  wellFormed : graph.WellFormed
  wellFormed' : other.WellFormed
  leaf : ∀ {v w}, graph.isLive v = true → w ∈ graph.leaves v → kept w

namespace Twins

variable {name : Nat → Nat} {kept : Nat → Prop} {graph other : RegionGraph}
  (twins : Twins name kept graph other) {u v : Nat}
include twins

theorem injective : Function.Injective name :=
  twins.renamed.injective

theorem table_name (v : Nat) :
    other.table (name v) = (graph.table v).map (Node.relabel name name) :=
  twins.renamed.payload?_name

theorem isLive_name (v : Nat) : other.isLive (name v) = graph.isLive v :=
  twins.renamed.isLive_name

theorem kind?_name (v : Nat) : other.kind? (name v) = graph.kind? v := by
  rw [kind?, kind?, twins.table_name]
  cases graph.table v with
  | none => rfl
  | some node => exact congrArg some node.kind_relabel

theorem isLeaf_name (v : Nat) : other.isLeaf (name v) = graph.isLeaf v := by
  rw [isLeaf, isLeaf, twins.kind?_name]

theorem isJump_name (v : Nat) : other.isJump (name v) = graph.isJump v := by
  rw [isJump, isJump, twins.kind?_name]

/-! ## Edges -/

theorem successors_name (v : Nat) : other.successors (name v) = (graph.successors v).map name :=
  twins.renamed.successors_name v

theorem branches_name (v : Nat) : other.branches (name v) = (graph.branches v).map name := by
  have turned := filter_ne_map_name twins.injective (graph.successors v) terminator
  rw [twins.renamed.name_terminator, ← twins.successors_name] at turned
  exact turned

theorem exits_name (v : Nat) : other.exits (name v) = (graph.exits v).map name := by
  rw [exits, exits, twins.branches_name, eraseDups_map_name twins.injective]

theorem bne_root (v : Nat) : (name v != root) = (v != root) := by
  have turned := bne_name twins.injective v root
  rwa [twins.renamed.name_root] at turned

theorem returns_name (v : Nat) : other.returns (name v) = graph.returns v := by
  rw [returns, returns, Digraph.hasEdge, Digraph.hasEdge, twins.successors_name,
    ← twins.renamed.name_terminator, contains_map_name twins.injective,
    twins.renamed.name_terminator]

theorem entry?_name : other.entry? = graph.entry?.map name := by
  have edges := twins.successors_name root
  rw [twins.renamed.name_root] at edges
  rw [ entry?, entry?, edges, List.head?_map]

/-- Predecessors are the old ones under their names, in some order. -/
theorem entrants_perm (v : Nat) : (other.entrants (name v)).Perm ((graph.entrants v).map name) := by
  rw [List.perm_ext_iff_of_nodup (nodup_entrants other _)
    ((nodup_entrants graph v).map twins.injective)]
  intro w
  rw [ entrants, entrants, List.mem_eraseDups, twins.renamed.mem_predecessors_name, List.mem_map]
  simp only [List.mem_eraseDups]

/-- Predecessors picked by what names do not change. -/
theorem entrants_filter_perm {test test' : Nat → Bool} (same : ∀ p, test' (name p) = test p)
    (v : Nat) : ((other.entrants (name v)).filter test').Perm
      (((graph.entrants v).filter test).map name) := by
  have turned : ((graph.entrants v).map name).filter test' =
      ((graph.entrants v).filter test).map name := by
    rw [List.filter_map]
    simp only [Function.comp_def, same]
  exact turned ▸ (twins.entrants_perm v).filter test'

theorem entersAlone_name (p v : Nat) :
    other.entersAlone (name p) (name v) = graph.entersAlone p v := by
  rw [ entersAlone, entersAlone, ← beq_singleton_map_name twins.injective (graph.entrants v) p,
    Bool.eq_iff_iff, beq_iff_eq, beq_iff_eq]
  constructor
  · intro single
    rw [← List.perm_singleton, ← single]
    exact (twins.entrants_perm v).symm
  · intro single
    rw [← List.perm_singleton, ← single]
    exact twins.entrants_perm v

/-! ## Walks down from a region -/

section Walks

variable {β : Type} (level : NodeTable.Level β) {walk : NodeTable → Nat → Nat → β}
  (unfolds : ∀ table fuel i, walk table (fuel + 1) i = level.at? (table i) (walk table fuel))
include unfolds

theorem walk_name {turn : β → β} (absent : ∀ f f', level.at? none f' = turn (level.at? none f))
    (follows : ∀ (node : Node) (f f' : Nat → β),
      (∀ r ∈ node.references, f' (name r) = turn (f r)) →
        level.at? (some (node.relabel name name)) f' = turn (level.at? (some node) f)) (v : Nat) :
    walk other.table other.size (name v) = turn (walk graph.table graph.size v) := by
  refine NodeTable.walk_relabel level unfolds absent follows twins.wellFormed.nested
    twins.wellFormed'.nested (fun _ => twins.renamed.lt_size_iff)
    (Digraph.start_lt_size twins.renamed.consistent .forward)
    (Digraph.start_lt_size twins.renamed.consistent' .forward) twins.table_name
    (fun v outside => ?_) v
  cases found : graph.table v with
  | none => rfl
  | some node => exact absurd (lt_size_of_table found) (Nat.not_lt.mpr outside)

end Walks

theorem branchingVertex?_name (v : Nat) :
    other.branchingVertex? (name v) = (graph.branchingVertex? v).map name :=
  twins.walk_name _ NodeTable.branchingVertex?_succ (fun _ _ => rfl)
    NodeTable.branchingLevel_relabel v

theorem branchCond?_name (v : Nat) :
    other.branchCond? (name v) = (graph.branchCond? v).map (Cond.relabel name) :=
  twins.walk_name _ NodeTable.branchCond?_succ (fun _ _ => rfl) NodeTable.condLevel_relabel v

theorem firstVertex?_name (v : Nat) :
    other.firstVertex? (name v) = (graph.firstVertex? v).map name :=
  twins.walk_name _ NodeTable.firstVertex?_succ (fun _ _ => rfl) NodeTable.firstLevel_relabel v

theorem leaves_name (v : Nat) : other.leaves (name v) = (graph.leaves v).map name := by
  rw [leaves_eq_gather, leaves_eq_gather]
  exact twins.walk_name _ (NodeTable.gather_succ _ _) (fun _ _ => rfl)
    NodeTable.gatherLevel_relabel v

/-! ## Hooks -/

/-- The vertex whose branch ends a region is one of its leaves. -/
theorem mem_leaves_of_branchingVertex? {w : Nat} (found : graph.branchingVertex? v = some w) :
    w ∈ graph.leaves v := by
  have wellFormed := twins.wellFormed
  induction v using Nat.strongRecOn with
  | ind v inductionHypothesis =>
      cases isNode : graph.table v with
      | none =>
          obtain ⟨fuel, sizeEq⟩ : ∃ fuel, graph.size = fuel + 1 :=
            Nat.exists_eq_succ_of_ne_zero
              (Nat.ne_of_gt (Digraph.start_lt_size wellFormed.consistent .forward))
          rw [branchingVertex?, sizeEq, NodeTable.branchingVertex?_succ, isNode] at found
          cases found
      | some node =>
          have below := wellFormed.nested.below isNode
          rw [wellFormed.branchingVertex?_unfold (lt_size_of_table isNode), isNode] at found
          rw [wellFormed.mem_leaves isNode]
          obtain ⟨shape, cond⟩ := node
          cases shape with
          | leaf vertex => exact .inl found
          | seq nodes =>
              obtain ⟨last, isLast, ends⟩ := Option.bind_eq_some_iff.mp found
              have isPart : last ∈ nodes := List.mem_of_getLast? isLast
              exact .inr ⟨last, isPart, inductionHypothesis last (below last isPart) ends⟩
          | tail body =>
              have isPart : body ∈ [body] := List.mem_singleton_self body
              exact .inr ⟨body, isPart, inductionHypothesis body (below body isPart) found⟩
          | _ => cases found

variable {config config' : Config} (agrees : config.Agrees name kept config')
include agrees

theorem branchesManyWays_name (live : graph.isLive v = true) :
    other.branchesManyWays config' (name v) = graph.branchesManyWays config v := by
  rw [branchesManyWays, branchesManyWays, twins.branches_name, List.length_map,
    twins.branchingVertex?_name]
  cases found : graph.branchingVertex? v with
  | none => rfl
  | some w =>
      have isKept := twins.leaf live (twins.mem_leaves_of_branchingVertex? found)
      rw [Option.map_some, Option.any_some, Option.any_some, agrees.multiway isKept]

theorem binaryBranch?_name (live : graph.isLive v = true) :
    other.binaryBranch? config' (name v) =
      (graph.binaryBranch? config v).map (Prod.map name name) := by
  rw [binaryBranch?, binaryBranch?, twins.branches_name,
    twins.branchesManyWays_name agrees live]
  rcases graph.branches v with _ | ⟨whenTrue, _ | ⟨whenFalse, _ | ⟨third, rest⟩⟩⟩
  · rfl
  · rfl
  · show (if graph.branchesManyWays config v then none
      else some (name whenTrue, name whenFalse)) = _
    split <;> rfl
  · rfl

theorem fork?_name (live : graph.isLive v = true) :
    other.fork? config' (name v) = (graph.fork? config v).map (Prod.map name name) := by
  rw [fork?, fork?, twins.binaryBranch?_name agrees live]
  cases graph.binaryBranch? config v with
  | none => rfl
  | some ways =>
      dsimp only [Option.map_some, Prod.map]
      simp only [twins.injective.eq_iff]
      split <;> rfl

end Twins

end RegionGraph

end FlowRegions
