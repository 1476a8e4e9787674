import FlowRegions.Proofs.Renaming.Runs
import FlowRegions.Proofs.Structuring.Jumps

/-!
Contract: trees that differ in the names of vertices and regions only.

Regions are numbered in the order in which a run makes them, so trees of the same
flow may number them differently.  They are still walked in the same order, and
their texts name no region.

Owns:
- `Tree.relabel`, a tree with other names for vertices;
- `Tree.Renamed`, what it takes to be the same tree under new names, and
  `NodeTable.Renamed`, the same for tables, from which it follows;
- that runs in lockstep end with such trees.
-/

namespace FlowRegions

open FlowRegions.Digraph (root terminator)

/-! ## Nodes under several names -/

section Relabel

variable {vertex vertex' region region' : Nat → Nat}

theorem Cond.relabel_relabel (cond : Cond) :
    (cond.relabel vertex).relabel vertex' = cond.relabel (vertex' ∘ vertex) := by
  induction cond with
  | test tested => rfl
  | not operand inductionHypothesis => exact congrArg not inductionHypothesis
  | and left right leftHypothesis rightHypothesis =>
      exact congrArg₂ and leftHypothesis rightHypothesis
  | or left right leftHypothesis rightHypothesis =>
      exact congrArg₂ or leftHypothesis rightHypothesis

theorem Cond.relabel_congr {cond : Cond} (same : ∀ v ∈ cond.vertices, vertex v = vertex' v) :
    cond.relabel vertex = cond.relabel vertex' := by
  induction cond with
  | test tested => exact congrArg test (same tested (List.mem_singleton_self tested))
  | not operand inductionHypothesis => exact congrArg not (inductionHypothesis same)
  | and left right leftHypothesis rightHypothesis =>
      exact congrArg₂ and (leftHypothesis fun v member => same v (List.mem_append_left _ member))
        (rightHypothesis fun v member => same v (List.mem_append_right _ member))
  | or left right leftHypothesis rightHypothesis =>
      exact congrArg₂ or (leftHypothesis fun v member => same v (List.mem_append_left _ member))
        (rightHypothesis fun v member => same v (List.mem_append_right _ member))

theorem Cond.relabel_id (cond : Cond) : cond.relabel id = cond := by
  induction cond with
  | test tested => rfl
  | not operand inductionHypothesis => exact congrArg not inductionHypothesis
  | and left right leftHypothesis rightHypothesis =>
      exact congrArg₂ and leftHypothesis rightHypothesis
  | or left right leftHypothesis rightHypothesis =>
      exact congrArg₂ or leftHypothesis rightHypothesis

theorem Cond.vertices_relabel (cond : Cond) :
    (cond.relabel vertex).vertices = cond.vertices.map vertex := by
  induction cond with
  | test tested => rfl
  | not operand inductionHypothesis => exact inductionHypothesis
  | and left right leftHypothesis rightHypothesis
  | or left right leftHypothesis rightHypothesis =>
      show _ ++ _ = (left.vertices ++ right.vertices).map vertex
      rw [leftHypothesis, rightHypothesis, List.map_append]

theorem Shape.relabel_relabel (shape : Shape Nat) :
    (shape.relabel vertex region).relabel vertex' region' =
      shape.relabel (vertex' ∘ vertex) (region' ∘ region) := by
  cases shape with
  | seq nodes => exact congrArg seq List.map_map
  | switch head arms =>
      refine congrArg (switch _) (List.map_map.trans (List.map_congr_left fun arm _ => ?_))
      exact congrArg (Arm.mk arm.edges) (Option.map_map region' region arm.body)
  | _ => rfl

theorem Shape.relabel_id (shape : Shape Nat) : shape.relabel id id = shape := by
  have arms (arms : List (Arm Nat)) : arms.map (Arm.relabel id) = arms := by
    have same : Arm.relabel id = id := funext fun arm =>
      congrArg (Arm.mk arm.edges) (congrFun Option.map_id arm.body)
    rw [same, List.map_id]
  cases shape with
  | seq nodes => exact congrArg seq (List.map_id nodes)
  | switch head given => exact congrArg (switch head) (arms given)
  | _ => rfl

theorem Node.relabel_relabel (node : Node) :
    (node.relabel vertex region).relabel vertex' region' =
      node.relabel (vertex' ∘ vertex) (region' ∘ region) := by
  refine congrArg₂ Node.mk node.shape.relabel_relabel (Option.map_map _ _ node.cond |>.trans ?_)
  exact congrArg (Option.map · node.cond) (funext Cond.relabel_relabel)

theorem Node.relabel_id (node : Node) : node.relabel id id = node := by
  refine congrArg₂ Node.mk node.shape.relabel_id ?_
  rw [funext Cond.relabel_id]
  exact congrFun Option.map_id node.cond

/-- Names of vertices matter for the vertex of a leaf and for what is tested. -/
theorem Node.relabel_congr {node : Node} (leaf : ∀ v ∈ node.leafVertices, vertex v = vertex' v)
    (tested : ∀ v ∈ node.tested, vertex v = vertex' v) :
    node.relabel vertex region = node.relabel vertex' region := by
  obtain ⟨shape, cond⟩ := node
  have conds : cond.map (Cond.relabel vertex) = cond.map (Cond.relabel vertex') := by
    cases cond with
    | none => rfl
    | some cond => exact congrArg some (Cond.relabel_congr tested)
  refine congrArg₂ Node.mk ?_ conds
  cases shape with
  | leaf found => exact congrArg Shape.leaf (leaf found (List.mem_singleton_self found))
  | _ => rfl

theorem Node.tested_relabel (node : Node) :
    (node.relabel vertex region).tested = node.tested.map vertex := by
  obtain ⟨shape, cond⟩ := node
  cases cond with
  | none => rfl
  | some cond => exact cond.vertices_relabel

theorem Node.references_relabel (node : Node) :
    (node.relabel vertex region).references = node.references.map region := by
  obtain ⟨shape, cond⟩ := node
  cases shape with
  | jump target => rfl
  | _ => exact Node.children_relabel _

end Relabel

/-! ## Tables -/

namespace NodeTable

variable {vertex region : Nat → Nat} {kept holds : Nat → Prop} {table other : NodeTable}

/-- Where a region starts does not depend on the fuel. -/
theorem Nested.firstVertex?_eq (nested : table.Nested) {i fuel fuel' : Nat} (enough : i < fuel)
    (enough' : i < fuel') : table.firstVertex? fuel' i = table.firstVertex? fuel i :=
  walk_congr _ firstVertex?_succ nested (fun _ _ => rfl) enough enough'

def relabel (vertex : Nat → Nat) (table : NodeTable) : NodeTable :=
  fun i => (table i).map (Node.relabel vertex id)

theorem firstVertex?_relabel (vertex : Nat → Nat) (table : NodeTable) (fuel i : Nat) :
    (table.relabel vertex).firstVertex? fuel i = (table.firstVertex? fuel i).map vertex := by
  induction fuel generalizing i with
  | zero => rfl
  | succ fuel inductionHypothesis =>
      rw [firstVertex?_succ, firstVertex?_succ, relabel]
      cases table i with
      | none => rfl
      | some node => exact firstLevel_relabel node _ _ fun r _ => inductionHypothesis r

/-- What a table holds of certain regions, another holds under new names.  The
regions go down to their parts, they mention vertices that are kept, and every jump
among them has a label that is kept. -/
structure Renamed (vertex region : Nat → Nat) (kept holds : Nat → Prop)
    (table other : NodeTable) : Prop where
  nested : table.Nested
  nested' : other.Nested
  node : ∀ {i}, holds i → other (region i) = (table i).map (Node.relabel vertex region)
  absent : ∀ {i}, holds i → table i = none → region i = i
  parts : ∀ {i node}, holds i → table i = some node → ∀ r ∈ node.children, holds r
  mentions : ∀ {i node}, holds i → table i = some node →
    ∀ w, w ∈ node.leafVertices ∨ w ∈ node.tested → kept w
  label : ∀ {i target cond}, holds i → table i = some ⟨.jump target, cond⟩ →
    ∃ label, kept label ∧ table.firstVertex? (target + 1) target = some label ∧
      other.firstVertex? (region target + 1) (region target) = some (vertex label)

namespace Renamed

variable (renamed : Renamed vertex region kept holds table other)
include renamed

theorem exists_node {i : Nat} {node' : Node} (here : holds i)
    (found' : other (region i) = some node') :
    ∃ node, table i = some node ∧ node' = node.relabel vertex region := by
  rw [renamed.node here, Option.map_eq_some_iff] at found'
  obtain ⟨node, found, same⟩ := found'
  exact ⟨node, found, same.symm⟩

/-- Names of vertices that are not kept do not matter. -/
theorem congr {vertex' : Nat → Nat} (same : ∀ {w}, kept w → vertex' w = vertex w) :
    Renamed vertex' region kept holds table other where
  nested := renamed.nested
  nested' := renamed.nested'
  node := by
    intro i here
    rw [renamed.node here]
    cases found : table i with
    | none => rfl
    | some node =>
        have mentions := renamed.mentions here found
        refine congrArg some (Node.relabel_congr (fun w isLeaf => ?_) fun w isTested => ?_)
        · exact (same (mentions w (.inl isLeaf))).symm
        · exact (same (mentions w (.inr isTested))).symm
  absent := renamed.absent
  parts := renamed.parts
  mentions := renamed.mentions
  label := by
    intro i target cond here found
    obtain ⟨label, isKept, first, first'⟩ := renamed.label here found
    exact ⟨label, isKept, first, by rw [same isKept, first']⟩

/-- The table is the other one under the old names. -/
theorem symm {vertex' region' : Nat → Nat} (back : ∀ i, region' (region i) = i)
    (same : ∀ {w}, kept w → vertex' (vertex w) = w) :
    Renamed vertex' region' (fun w => ∃ v, kept v ∧ vertex v = w)
      (fun j => ∃ i, holds i ∧ region i = j) other table where
  nested := renamed.nested'
  nested' := renamed.nested
  node := by
    rintro _ ⟨i, here, rfl⟩
    rw [back, renamed.node here]
    cases found : table i with
    | none => rfl
    | some node =>
        have mentions := renamed.mentions here found
        have regions : region' ∘ region = id := funext back
        refine congrArg some ?_
        rw [Node.relabel_relabel, regions]
        refine (Node.relabel_id node).symm.trans (Node.relabel_congr ?_ ?_)
        · exact fun w isLeaf => (same (mentions w (.inl isLeaf))).symm
        · exact fun w isTested => (same (mentions w (.inr isTested))).symm
  absent := by
    rintro _ ⟨i, here, rfl⟩ absent
    rw [renamed.node here, Option.map_eq_none_iff] at absent
    rw [back, renamed.absent here absent]
  parts := by
    rintro _ node' ⟨i, here, rfl⟩ found' r' isPart
    obtain ⟨node, found, rfl⟩ := renamed.exists_node here found'
    rw [Node.children_relabel] at isPart
    obtain ⟨r, isChild, rfl⟩ := List.mem_map.mp isPart
    exact ⟨r, renamed.parts here found r isChild, rfl⟩
  mentions := by
    rintro _ node' ⟨i, here, rfl⟩ found' w' mentioned
    obtain ⟨node, found, rfl⟩ := renamed.exists_node here found'
    rw [Node.leafVertices_relabel, Node.tested_relabel] at mentioned
    simp only [List.mem_map] at mentioned
    rcases mentioned with ⟨w, isLeaf, rfl⟩ | ⟨w, isTested, rfl⟩
    · exact ⟨w, renamed.mentions here found w (.inl isLeaf), rfl⟩
    · exact ⟨w, renamed.mentions here found w (.inr isTested), rfl⟩
  label := by
    rintro _ target' cond' ⟨i, here, rfl⟩ found'
    obtain ⟨⟨shape, cond⟩, found, isNode⟩ := renamed.exists_node here found'
    cases shape with
    | jump target =>
        cases isNode
        obtain ⟨label, isKept, first, first'⟩ := renamed.label here found
        refine ⟨vertex label, ⟨label, isKept, rfl⟩, first', ?_⟩
        rw [back, first, same isKept]
    | _ => cases isNode

theorem below {i r : Nat} {node : Node} (here : holds i) (found : table i = some node)
    (refers : r ∈ node.references) : r < i ∧ region r < region i := by
  refine ⟨renamed.nested.below found r refers, ?_⟩
  have found' := renamed.node here
  rw [found] at found'
  refine renamed.nested'.below found' _ ?_
  rw [Node.references_relabel]
  exact List.mem_map_of_mem refers

/-- Walks stay among the regions. -/
theorem holds_of_mem_walk {fuel i j : Nat} {node : Node} (here : holds i)
    (met : (j, node) ∈ table.walk (fun _ => true) fuel i) : holds j := by
  induction fuel generalizing i with
  | zero => cases met
  | succ fuel inductionHypothesis =>
      rw [walk] at met
      cases found : table i with
      | none =>
          rw [found] at met
          cases met
      | some top =>
          rw [found] at met
          rcases List.mem_cons.mp met with same | below
          · cases same
            exact here
          · obtain ⟨r, isPart, met⟩ := List.mem_flatMap.mp below
            exact inductionHypothesis (renamed.parts here found r isPart) met

/-- The label of a jump does not depend on the fuel. -/
theorem label_within {i target : Nat} {cond : Option Cond} (here : holds i)
    (found : table i = some ⟨.jump target, cond⟩) {fuel fuel' : Nat} (enough : target < fuel)
    (enough' : region target < fuel') :
    ∃ label, table.firstVertex? fuel target = some label ∧
      other.firstVertex? fuel' (region target) = some (vertex label) := by
  obtain ⟨label, _, first, first'⟩ := renamed.label here found
  exact ⟨label, (renamed.nested.firstVertex?_eq (Nat.lt_succ_self _) enough).trans first,
    (renamed.nested'.firstVertex?_eq (Nat.lt_succ_self _) enough').trans first'⟩

/-- Walks meet the same regions in the same order. -/
theorem walk_eq {i fuel fuel' : Nat} (here : holds i) (enough : i < fuel)
    (enough' : region i < fuel') :
    other.walk (fun _ => true) fuel' (region i) =
      (table.walk (fun _ => true) fuel i).map
        fun (j, node) => (region j, node.relabel vertex region) := by
  induction i using Nat.strongRecOn generalizing fuel fuel' with
  | ind i inductionHypothesis =>
      obtain ⟨fuel, rfl⟩ : ∃ less, fuel = less + 1 := ⟨fuel - 1, by omega⟩
      obtain ⟨fuel', rfl⟩ : ∃ less, fuel' = less + 1 := ⟨fuel' - 1, by omega⟩
      rw [walk, walk, renamed.node here]
      cases found : table i with
      | none => rfl
      | some node =>
          have below : (node.children.map region).flatMap (other.walk (fun _ => true) fuel') =
              (node.children.flatMap (table.walk (fun _ => true) fuel)).map
                fun (j, node) => (region j, node.relabel vertex region) := by
            rw [List.flatMap_map, List.map_flatMap]
            refine List.flatMap_congr fun r isPart => ?_
            obtain ⟨less, less'⟩ :=
              renamed.below here found (Node.mem_references_of_mem_children isPart)
            exact inductionHypothesis r less (renamed.parts here found r isPart) (by omega)
              (by omega)
          show (region i, node.relabel vertex region) :: _ = (region i, _) :: _
          rw [if_pos rfl, if_pos rfl, Node.children_relabel, below]

/-- Texts are the same once vertices are renamed: they name no region. -/
theorem render_eq {i fuel fuel' : Nat} (here : holds i) (enough : i < fuel)
    (enough' : region i < fuel') :
    other.render fuel' (region i) = (table.relabel vertex).render fuel i := by
  induction i using Nat.strongRecOn generalizing fuel fuel' with
  | ind i inductionHypothesis =>
      obtain ⟨fuel, rfl⟩ : ∃ less, fuel = less + 1 := ⟨fuel - 1, by omega⟩
      obtain ⟨fuel', rfl⟩ : ∃ less, fuel' = less + 1 := ⟨fuel' - 1, by omega⟩
      rw [render, render, renamed.node here, relabel]
      cases found : table i with
      | none =>
          rw [renamed.absent here found]
          rfl
      | some node =>
          have part {r : Nat} (isPart : r ∈ node.children) :
              other.render fuel' (region r) = (table.relabel vertex).render fuel r := by
            obtain ⟨less, less'⟩ :=
              renamed.below here found (Node.mem_references_of_mem_children isPart)
            exact inductionHypothesis r less (renamed.parts here found r isPart) (by omega)
              (by omega)
          have parts : (node.relabel vertex region).children.map (other.render fuel') =
              (node.relabel vertex id).children.map ((table.relabel vertex).render fuel) := by
            rw [Node.children_relabel, Node.children_relabel, List.map_map, List.map_map]
            exact List.map_congr_left fun r isPart => part isPart
          obtain ⟨shape, cond⟩ := node
          cases shape with
          | leaf found => rfl
          | jump target =>
              obtain ⟨less, less'⟩ := renamed.below here found (List.mem_singleton_self target)
              obtain ⟨label, first, first'⟩ := renamed.label_within here found
                (show target < fuel by omega) (show region target < fuel' by omega)
              dsimp only [Option.map_some, Node.relabel, Shape.relabel, id_eq]
              rw [firstVertex?_relabel, first, first']
              rfl
          | switch head arms =>
              have cases (arm : Arm Nat) (isArm : arm ∈ arms) :
                  ((arm.relabel region).body.map (other.render fuel')).toList =
                    ((arm.relabel id).body.map ((table.relabel vertex).render fuel)).toList := by
                obtain ⟨edges, body⟩ := arm
                cases body with
                | none => rfl
                | some body =>
                    refine congrArg (fun text => [text]) (part ?_)
                    exact List.mem_cons_of_mem _ (List.mem_filterMap.mpr ⟨_, isArm, rfl⟩)
              refine congrArg (bracketed "switch")
                (congrArg₂ List.cons (part List.mem_cons_self) ?_)
              show (arms.map (Arm.relabel region)).map _ = (arms.map (Arm.relabel id)).map _
              rw [List.map_map, List.map_map]
              refine List.map_congr_left fun arm isArm => ?_
              exact congrArg (fun text => bracketed "case" (renderEdges arm.edges :: text))
                (cases arm isArm)
          | seq nodes => exact congrArg (bracketed "seq") parts
          | tail body => exact congrArg (bracketed "tail") parts
          | ifThen head thenArm | ifElse head thenArm elseArm | selfLoop body
          | whileLoop head body | doWhile body latch | forLoop init head body step =>
              exact congrArg (fun items => bracketed _ (_ :: items)) parts

end Renamed

end NodeTable

/-! ## Trees -/

namespace Tree

def relabel (vertex : Nat → Nat) (tree : Tree) : Tree where
  nodes := tree.nodes.map (Option.map (Node.relabel vertex id))
  root := tree.root
  unreachable := tree.unreachable.map vertex
  duplicated := tree.duplicated

/-- One tree is another when its vertices get the names `vertex` and its regions
the numbers `region`, as far as the trees run: what they leave out as unreachable
may differ. -/
structure Renamed (vertex region : Nat → Nat) (tree other : Tree) : Prop where
  injective : Set.InjOn region {i | ∃ node, (i, node) ∈ tree.walk}
  /-- The regions of vertices go with them. -/
  leaf : ∀ v ∈ tree.leaves, region v = vertex v
  root : other.root = region tree.root
  walk : other.walk = tree.walk.map fun (i, node) => (region i, node.relabel vertex region)
  label : ∀ {i node target}, (i, node) ∈ tree.walk → node.shape = .jump target →
    other.table.firstVertex? other.nodes.size (region target) =
      (tree.table.firstVertex? tree.nodes.size target).map vertex
  duplicated : other.duplicated = tree.duplicated.map region
  render : other.render = (tree.relabel vertex).render

theorem size_relabel (vertex : Nat → Nat) (tree : Tree) :
    (tree.relabel vertex).nodes.size = tree.nodes.size :=
  Array.size_map

theorem table_relabel (vertex : Nat → Nat) (tree : Tree) :
    (tree.relabel vertex).table = tree.table.relabel vertex := by
  funext i
  show ((tree.nodes.map (Option.map (Node.relabel vertex id)))[i]?).join = _
  rw [Array.getElem?_map]
  show _ = ((tree.nodes[i]?).join).map (Node.relabel vertex id)
  cases tree.nodes[i]? <;> rfl

end Tree

/-! ## Trees of states -/

namespace State

variable {vertex region : Nat → Nat} {kept holds : Nat → Prop} {state other : State} {entry : Nat}

/-- Trees of states are the same under new names when their tables are. -/
theorem tree_renamed
    (renamed : NodeTable.Renamed vertex region kept holds state.graph.table other.graph.table)
    (within : ∀ {i}, holds i → i < state.graph.size ∧ region i < other.graph.size)
    (injective : Set.InjOn region {i | holds i})
    (leaf : ∀ v ∈ state.graph.leaves entry, region v = vertex v)
    (duplicated : other.duplicated = state.duplicated.map region) (here : holds entry) :
    Tree.Renamed vertex region (state.tree entry) (other.tree (region entry)) := by
  have walks : (state.tree entry).walk =
      state.graph.table.walk (fun _ => true) state.graph.size entry := walkWhere_tree _ _ _
  refine
    { injective := injective.mono fun i ⟨node, met⟩ => ?_
      leaf := by rwa [leaves_tree]
      root := rfl
      walk := ?_
      label := fun {i node target} met isJump => ?_
      duplicated
      render := ?_ }
  · rw [walks] at met
    exact renamed.holds_of_mem_walk here met
  · rw [walks]
    exact (walkWhere_tree _ _ _).trans (renamed.walk_eq here (within here).1 (within here).2)
  · rw [walks] at met
    have isRegion := renamed.holds_of_mem_walk here met
    have found := NodeTable.table_of_mem_walk met
    obtain ⟨shape, cond⟩ := node
    cases isJump
    obtain ⟨less, less'⟩ := renamed.below isRegion found (List.mem_singleton_self target)
    obtain ⟨bound, bound'⟩ := within isRegion
    obtain ⟨label, first, first'⟩ := renamed.label_within isRegion found (less.trans bound)
      (less'.trans bound')
    rw [table_tree, table_tree, size_tree, size_tree, first, first']
    rfl
  · rw [Tree.render, Tree.render, Tree.table_relabel, Tree.size_relabel, table_tree, table_tree,
      size_tree, size_tree]
    exact renamed.render_eq here (within here).1 (within here).2

namespace Lockstep

variable {name : Nat → Nat} {config config' : Config} {targets targets' : Nat → List Nat}
  (lockstep : Lockstep name kept config config' targets targets' state other)
  (labelled : RegionGraph.Labelled state.labels state.graph)
include lockstep labelled

/-- The tables of such states are the same under the names, as far as only kept
vertices are leaves. -/
theorem table_renamed : NodeTable.Renamed name name kept
    (fun i => i < state.graph.size ∧ ∀ w ∈ state.graph.leaves i, kept w)
    state.graph.table other.graph.table := by
  have wellFormed := lockstep.proper.wellFormed
  have nested := wellFormed.nested
  have nested' := lockstep.proper'.wellFormed.nested
  have below {i : Nat} {node : Node} (found : state.graph.table i = some node) :
      state.graph.leaves i = node.leafVertices ++ node.children.flatMap state.graph.leaves := by
    have leaves : state.graph.leaves = state.graph.gather (fun _ => true) Node.leafVertices :=
      funext fun v => RegionGraph.leaves_eq_gather state.graph v
    rw [leaves, RegionGraph.gather_node nested found, if_pos rfl]
  refine
    { nested
      nested'
      node := fun {i} _ => lockstep.twins.table_name i
      absent := fun {i} ⟨within, _⟩ absent => ?_
      parts := fun {i node} ⟨within, leaf⟩ found r isPart => ?_
      mentions := fun {i node} ⟨_, leaf⟩ found w mentioned => ?_
      label := fun {i target cond} ⟨within, _⟩ found => ?_ }
  · have synthetic : ¬ 2 ≤ i := by
      intro real
      have isSome := (RegionGraph.table_isSome_iff wellFormed.consistent).mpr ⟨real, within⟩
      rw [absent] at isSome
      cases isSome
    have isEnd : i = root ∨ i = terminator := by
      simp only [root, terminator]
      omega
    rcases isEnd with rfl | rfl
    · exact lockstep.renamed.name_root
    · exact lockstep.renamed.name_terminator
  · refine ⟨(nested.below found r (Node.mem_references_of_mem_children isPart)).trans within, ?_⟩
    intro w isLeaf
    apply leaf
    rw [below found]
    exact List.mem_append_right _ (List.mem_flatMap.mpr ⟨r, isPart, isLeaf⟩)
  · rcases mentioned with isLeaf | isTested
    · apply leaf
      rw [below found]
      exact List.mem_append_left _ isLeaf
    · exact lockstep.accounted.cond found w isTested
  · obtain ⟨label, isLabel, first⟩ := labelled.jumps found
    obtain ⟨v, live, isLeaf⟩ := labelled.held label isLabel
    have earlier := (nested.below found target (List.mem_singleton_self target)).trans within
    have first' := lockstep.twins.firstVertex?_name target
    rw [first] at first'
    have earlier' := lockstep.renamed.lt_size_iff.mpr earlier
    exact ⟨label, lockstep.accounted.leaf live isLeaf,
      (nested.firstVertex?_eq earlier (Nat.lt_succ_self _)).trans first,
      (nested'.firstVertex?_eq earlier' (Nat.lt_succ_self _)).trans first'⟩

variable {vertex : Nat → Nat} (live : state.graph.isLive entry = true)
include live

/-- The tree of the one state is that of the other under the names. -/
theorem tree_renamed (same : ∀ {w}, kept w → vertex w = name w) :
    Tree.Renamed vertex name (state.tree entry) (other.tree (name entry)) := by
  refine State.tree_renamed ((lockstep.table_renamed labelled).congr same)
    (fun here => ⟨here.1, lockstep.renamed.lt_size_iff.mpr here.1⟩)
    lockstep.renamed.injective.injOn (fun w isLeaf => ?_) lockstep.duplicated ?_
  · exact (same (lockstep.accounted.leaf live isLeaf)).symm
  · exact ⟨Digraph.lt_size_of_isLive live, fun _ => lockstep.accounted.leaf live⟩

/-- And the other way round, under the old names. -/
theorem tree_renamed_back (same : ∀ {w}, kept w → vertex (name w) = w) :
    ∃ region, Tree.Renamed vertex region (other.tree (name entry)) (state.tree entry) := by
  have back := Function.leftInverse_invFun lockstep.renamed.injective
  have renamed := (lockstep.table_renamed labelled).symm back same
  refine ⟨Function.invFun name, ?_⟩
  have here : entry < state.graph.size ∧ ∀ w ∈ state.graph.leaves entry, kept w :=
    ⟨Digraph.lt_size_of_isLive live, fun _ => lockstep.accounted.leaf live⟩
  have trees := State.tree_renamed renamed (fun {j} isName => ?_) (fun j isName k isName' => ?_)
    (fun w' isLeaf => ?_) ?_ ⟨entry, here, rfl⟩
  · rwa [back] at trees
  · obtain ⟨i, here, rfl⟩ := isName
    rw [back]
    exact ⟨lockstep.renamed.lt_size_iff.mpr here.1, here.1⟩
  · obtain ⟨i, _, rfl⟩ := isName
    obtain ⟨i', _, rfl⟩ := isName'
    rw [back, back]
    exact congrArg name
  · rw [lockstep.twins.leaves_name] at isLeaf
    obtain ⟨w, isOld, rfl⟩ := List.mem_map.mp isLeaf
    rw [back, same (lockstep.accounted.leaf live isOld)]
  · rw [lockstep.duplicated, List.map_map, back.comp_eq_id, List.map_id]

end Lockstep

end State

end FlowRegions
