import FlowRegions.Proofs.Structuring.Composite

/-!
Contract: what a region holds, the leaves below it and the vertices it tests.

A composite holds what its members hold.  Most rules make their members parts of
the new region.  Sequences are flattened and the body of a counting loop loses
its last part, so that members are opened and their parts taken; and a test that
is folded into a branch leaves nothing but its condition.

Owns:
- `NodeTable.gather`, what a walk reads off the nodes it meets, and the leaves of
  a region as a case of it;
- `RegionGraph.Made`, what becomes of the members of a collapse, and
  `Matches.made`, that every rule treats its members so;
- what a composite holds in terms of its members.
-/

namespace FlowRegions

open FlowRegions.Digraph (root terminator)

namespace Node

def leafVertices (node : Node) : List Nat :=
  node.leafVertex?.toList

def tested (node : Node) : List Nat :=
  (node.cond.map Cond.vertices).getD []

def isOriginal (node : Node) : Bool :=
  node.kind != .tail

theorem leafVertices_eq_nil {node : Node} (notLeaf : node.kind ≠ .leaf) :
    node.leafVertices = [] := by
  obtain ⟨shape, cond⟩ := node
  cases shape with
  | leaf => exact absurd rfl notLeaf
  | _ => rfl

theorem mem_tested {node : Node} {w : Nat} :
    w ∈ node.tested ↔ ∃ cond, node.cond = some cond ∧ w ∈ cond.vertices := by
  unfold tested
  cases node.cond <;> simp

end Node

namespace NodeTable

def gather (table : NodeTable) (enter : Node → Bool) (read : Node → List Nat) (fuel i : Nat) :
    List Nat :=
  (table.walk enter fuel i).flatMap fun (_, node) => read node

theorem leaves_eq_gather (table : NodeTable) (fuel i : Nat) :
    table.leaves fuel i = table.gather (fun _ => true) Node.leafVertices fuel i :=
  List.filterMap_eq_flatMap_toList _ _

def gatherLevel (enter : Node → Bool) (read : Node → List Nat) : Level (List Nat) where
  at? node? find :=
    match node? with
    | none => []
    | some node => read node ++ if enter node then node.children.flatMap find else []
  absent _ _ := rfl
  confined := by
    intro node f g same
    have below : node.children.flatMap f = node.children.flatMap g :=
      List.flatMap_congr fun r isChild => same r (Node.mem_references_of_mem_children isChild)
    dsimp only
    rw [below]

theorem gather_succ (enter : Node → Bool) (read : Node → List Nat) (table : NodeTable)
    (fuel i : Nat) :
    table.gather enter read (fuel + 1) i =
      (gatherLevel enter read).at? (table i) (table.gather enter read fuel) := by
  unfold gather
  rw [walk]
  cases table i with
  | none => rfl
  | some node =>
      dsimp only [gatherLevel]
      rw [List.flatMap_cons]
      split
      · rw [List.flatMap_assoc]
      · rfl

/-- A walk that enters fewer nodes meets none that are new. -/
theorem walk_subset (table : NodeTable) (enter : Node → Bool) (fuel i : Nat) :
    table.walk enter fuel i ⊆ table.walk (fun _ => true) fuel i := by
  induction fuel generalizing i with
  | zero => exact List.Subset.refl _
  | succ fuel inductionHypothesis =>
      rw [walk, walk]
      cases table i with
      | none => exact List.Subset.refl _
      | some node =>
          refine List.cons_subset_cons _ fun place member => ?_
          rw [if_pos rfl]
          split at member
          · obtain ⟨r, isChild, below⟩ := List.mem_flatMap.mp member
            exact List.mem_flatMap.mpr ⟨r, isChild, inductionHypothesis r below⟩
          · cases member

end NodeTable

namespace RegionGraph

variable {config : Config} {labels : List Nat} {graph changed : RegionGraph}
  {collapse : Collapse} {enter : Node → Bool} {read : Node → List Nat} {v new w : Nat}

/-! ## Reading regions -/

def gather (graph : RegionGraph) (enter : Node → Bool) (read : Node → List Nat) (v : Nat) :
    List Nat :=
  graph.table.gather enter read graph.size v

def held (graph : RegionGraph) (read : Node → List Nat) (v : Nat) : List Nat :=
  (graph.table v).elim [] read

def ownLeaves (graph : RegionGraph) (v : Nat) : List Nat :=
  graph.gather Node.isOriginal Node.leafVertices v

def ownTests (graph : RegionGraph) (v : Nat) : List Nat :=
  graph.gather Node.isOriginal Node.tested v

theorem leaves_eq_gather (graph : RegionGraph) (v : Nat) :
    graph.leaves v = graph.gather (fun _ => true) Node.leafVertices v :=
  NodeTable.leaves_eq_gather _ _ _

theorem held_eq {node : Node} (found : graph.table v = some node) :
    graph.held read v = read node := by
  rw [held, found]
  rfl

/-- A walk reads the node of a region, and goes on at its parts if it enters. -/
theorem gather_node (nested : graph.table.Nested) {node : Node}
    (found : graph.table v = some node) : graph.gather enter read v =
      read node ++ if enter node then node.children.flatMap (graph.gather enter read) else [] := by
  have unfolded := NodeTable.walk_unfold _ (NodeTable.gather_succ enter read) nested
    (lt_size_of_table found)
  rw [found] at unfolded
  exact unfolded

/-- What is read below a region that is entered. -/
theorem gather_eq (nested : graph.table.Nested)
    (entered : ∀ node, graph.table v = some node → enter node = true) :
    graph.gather enter read v =
      graph.held read v ++ (graph.held Node.children v).flatMap (graph.gather enter read) := by
  cases found : graph.table v with
  | none =>
      unfold gather NodeTable.gather
      cases graph.size <;> simp [NodeTable.walk, held, found]
  | some node =>
      rw [gather_node nested found, if_pos (entered node found), held_eq found, held_eq found]

theorem Extends.gather_eq (growth : Extends graph changed) (nested : graph.table.Nested)
    (within : v < graph.size) : changed.gather enter read v = graph.gather enter read v :=
  NodeTable.walk_congr _ (NodeTable.gather_succ enter read) nested
    (fun j le => growth.table_old (by omega)) within (Nat.lt_of_lt_of_le within growth.size_le)

/-- The leaves of a node are its own and those of its parts. -/
theorem WellFormed.mem_leaves (wellFormed : graph.WellFormed) {node : Node}
    (found : graph.table v = some node) : w ∈ graph.leaves v ↔
      node.leafVertex? = some w ∨ ∃ c ∈ node.children, w ∈ graph.leaves c := by
  rw [leaves_eq_gather, gather_node wellFormed.nested found, if_pos rfl, List.mem_append,
    Node.leafVertices, Option.mem_toList, List.mem_flatMap]
  simp only [leaves_eq_gather]

theorem Extends.leaves_eq (growth : Extends graph changed) (nested : graph.table.Nested)
    (within : v < graph.size) : changed.leaves v = graph.leaves v := by
  rw [leaves_eq_gather, leaves_eq_gather, growth.gather_eq nested within]

/-! ## What becomes of the members of a collapse -/

/-- The old regions that a composite is put together from: its parts, with an
added part in terms of its own. -/
def ingredients (graph : RegionGraph) (collapse : Collapse) : List Nat :=
  collapse.node.children.flatMap fun r =>
    if r = graph.size then (collapse.part.map Node.children).getD [] else [r]

theorem ingredients_eq (below : ∀ r ∈ collapse.node.children, r < graph.size) :
    graph.ingredients collapse = collapse.node.children := by
  calc graph.ingredients collapse
      = collapse.node.children.flatMap (fun r => [r]) := List.flatMap_congr fun r isChild =>
        if_neg (Nat.ne_of_lt (below r isChild))
    _ = collapse.node.children := List.flatMap_singleton' _

/-- What becomes of the members of a collapse: `whole` ones are parts of the new
region, `opened` ones give their parts to it, and of `folded` ones only the
condition is left. -/
structure Made (config : Config) (labels : List Nat) (graph : RegionGraph) (collapse : Collapse)
    (whole opened folded : List Nat) : Prop where
  members : collapse.members.Perm (whole ++ opened ++ folded)
  ingredients : (graph.ingredients collapse).Perm
    (whole ++ opened.flatMap (graph.held Node.children))
  original : collapse.node.isOriginal = true
  leaf : collapse.node.leafVertices = opened.flatMap (graph.held Node.leafVertices)
  /-- Leaves and sequences are opened. -/
  opens : ∀ m ∈ opened, ∃ node, graph.table m = some node ∧ (node.kind = .leaf ∨ node.kind = .seq)
  /-- What they test is kept, but for a loop body that has a single exit. -/
  keeps : ∀ m ∈ opened, graph.held Node.tested m ⊆ collapse.node.tested ∨
    ∃ t, graph.exits m = [t]
  folds : ∀ m ∈ folded, m ≠ collapse.entry ∧ ∃ v vertex head outer inner,
    Foldable config labels graph v m vertex head outer inner ∧
      inner.1.vertices ⊆ collapse.node.tested
  /-- The new region tests what its members test. -/
  tests : ∀ w ∈ collapse.node.tested, ∃ m ∈ collapse.members, ∃ cond,
    graph.branchCond? m = some cond ∧ w ∈ cond.vertices
  /-- A condition that a leaf or a sequence carries is a compound one. -/
  compound : collapse.node.kind = .leaf ∨ collapse.node.kind = .seq →
    ∀ w, collapse.node.cond ≠ some (.test w)

theorem TwoWay.mem_vertices {taken other : Nat} {cond : Option Cond}
    (twoWay : TwoWay config graph v taken other cond) {shape : Shape Nat}
    (isTested : w ∈ Node.tested ⟨shape, cond⟩) :
    ∃ condition, graph.branchCond? v = some condition ∧ w ∈ condition.vertices := by
  rcases twoWay.order with ⟨_, rfl⟩ | ⟨_, rfl⟩
  · exact Node.mem_tested.mp isTested
  · obtain ⟨condition, isCond, member⟩ := Node.mem_tested.mp isTested
    obtain ⟨inner, isInner, rfl⟩ := Option.map_eq_some_iff.mp isCond
    exact ⟨inner, isInner, by rwa [Cond.vertices_negate] at member⟩

theorem vertices_foldedBranch? {m first second : Nat} {folded : Cond}
    {outer inner : Cond × Nat × Nat}
    (branch : foldedBranch? m outer inner = some (folded, first, second)) :
    folded.vertices = outer.1.vertices ++ inner.1.vertices ∧ ∀ w, folded ≠ .test w := by
  rcases foldedBranch?_cases branch with
    ⟨_, _, rfl, _, _⟩ | ⟨_, _, rfl, _, _⟩ | ⟨_, _, rfl, _, _⟩ | ⟨_, _, rfl, _, _⟩ <;>
  simp [Cond.vertices, Cond.vertices_negate]

/-- A condition that a leaf or a sequence carries is that of its branch. -/
theorem WellFormed.branchCond?_of_cond (wellFormed : graph.WellFormed) {node : Node} {cond : Cond}
    (found : graph.table v = some node) (kind : node.kind = .leaf ∨ node.kind = .seq)
    (isCond : node.cond = some cond) : graph.branchCond? v = some cond := by
  rw [wellFormed.branchCond?_unfold (lt_size_of_table found), found]
  obtain ⟨shape, _⟩ := node
  cases isCond
  cases shape with
  | leaf | seq => rfl
  | _ => rcases kind with isKind | isKind <;> cases isKind

/-- A composite whose parts are its members. -/
theorem made_of_whole (fits : graph.Fits collapse)
    (parts : collapse.node.children = collapse.members)
    (closed : collapse.node.kind ≠ .leaf ∧ collapse.node.kind ≠ .seq ∧
      collapse.node.kind ≠ .tail)
    (tests : ∀ w ∈ collapse.node.tested, ∃ m ∈ collapse.members, ∃ cond,
      graph.branchCond? m = some cond ∧ w ∈ cond.vertices) :
    Made config labels graph collapse collapse.members [] [] where
  members := by simp
  ingredients := by
    rw [ingredients_eq, parts]
    · simp
    · rw [parts]
      exact fun m member => Digraph.lt_size_of_isLive (fits.live m member)
  original := bne_iff_ne.mpr closed.2.2
  leaf := Node.leafVertices_eq_nil closed.1
  opens := by simp
  keeps := by simp
  folds := by simp
  tests := tests
  compound := by
    rintro (isLeaf | isSeq)
    · exact absurd isLeaf closed.1
    · exact absurd isSeq closed.2.1

/-- A part of a sequence is whole, or a sequence that is opened. -/
theorem exists_whole_opened (graph : RegionGraph) (v : Nat) : ∃ whole opened,
    [v] = whole ++ opened ∧
      graph.sequenceParts v = whole ++ opened.flatMap (graph.held Node.children) ∧
      ∀ m ∈ opened, ∃ nodes, graph.table m = some ⟨.seq nodes, none⟩ := by
  rcases sequenceParts_cases graph v with ⟨nodes, isSeq, parts⟩ | parts
  · refine ⟨[], [v], rfl, ?_, ?_⟩
    · simp [parts, held_eq isSeq, Node.children, Shape.children]
    · simpa using ⟨nodes, isSeq⟩
  · exact ⟨[v], [], rfl, by simp [parts], by simp⟩

/-- The arms of a switch that are not empty are those it leads to. -/
theorem Switching.filterMap_body {follow : Option Nat} {arms : List Nat}
    (switching : Switching config graph v follow arms) :
    ((graph.branches v).eraseDups.map fun d =>
        { edges := positionsOf (graph.branches v) d
          body := if follow = some d then none else some d : Arm Nat }).filterMap Arm.body =
      arms := by
  rw [switching.arms_eq, List.filterMap_map, ← List.filterMap_eq_filter]
  refine List.filterMap_congr fun d _ => ?_
  by_cases isFollow : follow = some d <;> simp [isFollow, Option.guard]

section Rules

variable (wellFormed : graph.WellFormed)
include wellFormed

theorem made_compound {m vertex first second : Nat} {head : Node} {folded : Cond}
    {outer inner : Cond × Nat × Nat} {returns : Bool}
    (foldable : Foldable config labels graph v m vertex head outer inner)
    (branch : foldedBranch? m outer inner = some (folded, first, second)) :
    Made config labels graph
      { members := [v, m], entry := v, node := { head with cond := some folded }
        out := [first, second], returns } [] [v] [m] := by
  obtain ⟨vertices, notTest⟩ := vertices_foldedBranch? branch
  have headNode := foldable.head_node
  have within := lt_size_of_table headNode
  have below : ∀ r ∈ head.children, r < graph.size := fun r isChild =>
    Nat.lt_trans (wellFormed.nested.below headNode r (Node.mem_references_of_mem_children isChild))
      within
  have different : m ≠ v := by
    rcases foldable.isArm with rfl | rfl
    · exact foldable.outer_proper.2.1
    · exact foldable.outer_proper.2.2
  refine
    { members := .refl _
      ingredients := ?_
      original := ?_
      leaf := ?_
      opens := by simpa using ⟨head, headNode, foldable.head_kind⟩
      keeps := ?_
      folds := ?_
      tests := ?_
      compound := fun _ w same => notTest w (Option.some.inj same) }
  · rw [ingredients_eq below]
    simp [held_eq headNode, Node.children]
  · rcases foldable.head_kind with isKind | isKind <;>
      exact bne_iff_ne.mpr fun isTail => by cases isKind.symm.trans isTail
  · simp [held_eq headNode, Node.leafVertices, Node.leafVertex?]
  · intro u isHead
    obtain rfl := List.mem_singleton.mp isHead
    refine .inl fun w isTested => ?_
    rw [held_eq headNode] at isTested
    obtain ⟨cond, isCond, member⟩ := Node.mem_tested.mp isTested
    have same := wellFormed.branchCond?_of_cond headNode foldable.head_kind isCond
    rw [foldable.outer_cond] at same
    cases same
    exact Node.mem_tested.mpr ⟨folded, rfl, vertices ▸ List.mem_append_left _ member⟩
  · intro u isFolded
    obtain rfl := List.mem_singleton.mp isFolded
    refine ⟨different, v, vertex, head, outer, inner, foldable, fun w member => ?_⟩
    exact Node.mem_tested.mpr ⟨folded, rfl, vertices ▸ List.mem_append_right _ member⟩
  · intro w isTested
    obtain ⟨_, ⟨⟩, member⟩ := Node.mem_tested.mp isTested
    rw [vertices] at member
    rcases List.mem_append.mp member with ofOuter | ofInner
    · exact ⟨v, by simp, outer.1, foldable.outer_cond, ofOuter⟩
    · exact ⟨m, by simp, inner.1, foldable.inner_cond, ofInner⟩

theorem exists_made_sequence {next : Nat} {out : List Nat} {returns : Bool}
    (within : v < graph.size) (nextWithin : next < graph.size) : ∃ whole opened,
    Made config labels graph
      { members := [v, next], entry := v
        node := { shape := .seq (graph.sequenceParts v ++ graph.sequenceParts next) }
        out, returns } whole opened [] := by
  obtain ⟨whole, opened, isAll, parts, isSeq⟩ := exists_whole_opened graph v
  obtain ⟨whole', opened', isAll', parts', isSeq'⟩ := exists_whole_opened graph next
  have isSequence : ∀ m ∈ opened ++ opened', ∃ nodes, graph.table m = some ⟨.seq nodes, none⟩ := by
    intro m member
    rcases List.mem_append.mp member with first | second
    · exact isSeq m first
    · exact isSeq' m second
  refine ⟨whole ++ whole', opened ++ opened',
    { members := ?_
      ingredients := ?_
      original := rfl
      leaf := ?_
      opens := fun m member => ?_
      keeps := fun m member => ?_
      folds := by simp
      tests := by simp [Node.tested]
      compound := by simp }⟩
  · change ([v] ++ [next]).Perm _
    rw [isAll, isAll', List.perm_iff_count]
    intro u
    simp only [List.count_append, List.count_nil]
    omega
  · rw [ingredients_eq]
    · change (graph.sequenceParts v ++ graph.sequenceParts next).Perm _
      rw [parts, parts', List.perm_iff_count]
      intro u
      simp only [List.count_append, List.flatMap_append]
      omega
    · intro r isChild
      rcases List.mem_append.mp isChild with first | second
      · exact Nat.lt_of_le_of_lt (sequenceParts_le wellFormed first) within
      · exact Nat.lt_of_le_of_lt (sequenceParts_le wellFormed second) nextWithin
  · refine Eq.symm (List.flatMap_eq_nil_iff.mpr fun m member => ?_)
    obtain ⟨nodes, found⟩ := isSequence m member
    rw [held_eq found]
    rfl
  · obtain ⟨nodes, found⟩ := isSequence m member
    exact ⟨_, found, .inr rfl⟩
  · obtain ⟨nodes, found⟩ := isSequence m member
    refine .inl ?_
    rw [held_eq found]
    exact List.nil_subset _

theorem made_forLoop {body follow init step inner : Nat} {nodes : List Nat} {part : Option Node}
    {cond : Option Cond} {returns : Bool} (loop : TopTested config graph v body follow cond)
    (counting : Counting config graph v body follow init step nodes)
    (isInner : Inner graph nodes.dropLast inner part)
    (initWithin : init < graph.size) (within : v < graph.size) :
    Made config labels graph
      { members := [init, v, body], entry := init
        node := { shape := .forLoop init v inner step, cond }
        out := [follow], returns, part } [init, v] [body] [] := by
  obtain ⟨bodyCond, isBody⟩ := counting.body_parts
  obtain ⟨rest, rfl⟩ := List.getLast?_eq_some_iff.mp counting.step_last
  rw [List.dropLast_concat] at isInner
  have below {r : Nat} (isPart : r ∈ rest ++ [step]) : r < graph.size :=
    Nat.lt_trans (wellFormed.nested.below isBody r isPart) (lt_size_of_table isBody)
  have notSize {r : Nat} (isOld : r < graph.size) : r ≠ graph.size := Nat.ne_of_lt isOld
  refine
    { members := .refl _
      ingredients := ?_
      original := rfl
      leaf := ?_
      opens := ?_
      keeps := ?_
      folds := by simp
      tests := fun w isTested => ⟨v, by simp, loop.twoWay.mem_vertices isTested⟩
      compound := by simp [Node.kind, Shape.kind] }
  · have stepOld := notSize (below (r := step) (by simp))
    refine List.Perm.of_eq ?_
    rw [RegionGraph.ingredients]
    cases isInner with
    | single =>
        have innerOld := notSize (below (r := inner) (by simp))
        simp [Node.children, Shape.children, notSize initWithin, notSize within, innerOld, stepOld,
          held_eq isBody]
    | several =>
        simp [Node.children, Shape.children, notSize initWithin, notSize within, stepOld,
          held_eq isBody]
  · simp [held_eq isBody, Node.leafVertices, Node.leafVertex?]
  · simpa using ⟨_, isBody, .inr rfl⟩
  · simpa using .inr ⟨v, loop.body_exits⟩

/-- Every rule makes its composite from its members. -/
theorem Matches.made (live : graph.isLive v = true)
    (found : Matches config labels graph v collapse) :
    ∃ whole opened folded, Made config labels graph collapse whole opened folded := by
  have fits := found.fits wellFormed live
  have within {m : Nat} (member : m ∈ collapse.members) : m < graph.size :=
    Digraph.lt_size_of_isLive (fits.live m member)
  cases found with
  | forever =>
      exact ⟨_, _, _, made_of_whole fits rfl (by simp [Node.kind, Shape.kind])
        (by simp [Node.tested])⟩
  | selfLoop twoWay leaves =>
      exact ⟨_, _, _, made_of_whole fits rfl (by simp [Node.kind, Shape.kind])
        fun w isTested => ⟨v, by simp, twoWay.mem_vertices isTested⟩⟩
  | whileLoop loop =>
      exact ⟨_, _, _, made_of_whole fits rfl (by simp [Node.kind, Shape.kind])
        fun w isTested => ⟨v, by simp, loop.twoWay.mem_vertices isTested⟩⟩
  | forLoop loop counting isInner =>
      exact ⟨_, _, _, made_forLoop wellFormed loop counting isInner (within (by simp))
        (within (by simp))⟩
  | @doWhile latch follow cond exits proper alone twoWay leaves =>
      exact ⟨_, _, _, made_of_whole fits rfl (by simp [Node.kind, Shape.kind])
        fun w isTested => ⟨latch, by simp, twoWay.mem_vertices isTested⟩⟩
  | compound foldable branch => exact ⟨_, _, _, made_compound wellFormed foldable branch⟩
  | @sequence next exits proper alone ends =>
      obtain ⟨whole, opened, made⟩ := exists_made_sequence wellFormed
        (within (m := v) (by simp)) (within (m := next) (by simp))
      exact ⟨whole, opened, [], made⟩
  | ifElse =>
      exact ⟨_, _, _, made_of_whole fits rfl (by simp [Node.kind, Shape.kind])
        fun w isTested => ⟨v, by simp, Node.mem_tested.mp isTested⟩⟩
  | ifThen twoWay proper alone exits =>
      exact ⟨_, _, _, made_of_whole fits rfl (by simp [Node.kind, Shape.kind])
        fun w isTested => ⟨v, by simp, twoWay.mem_vertices isTested⟩⟩
  | switch switching returnsIff =>
      exact ⟨_, _, _, made_of_whole fits (congrArg (v :: ·) switching.filterMap_body)
        (by simp [Node.kind, Shape.kind]) (by simp [Node.tested])⟩

end Rules

/-! ## What a composite holds -/

section New

variable {whole opened folded : List Nat} (wellFormed : graph.WellFormed)
  (fits : graph.Fits collapse) (collapsed : Collapsed graph collapse new changed)
include wellFormed fits collapsed

/-- A composite reads its own node and what it is put together from. -/
theorem Collapsed.gather_new (enters : ∀ node : Node, node.isOriginal = true → enter node = true)
    (bare : ∀ nodes, read { shape := .seq nodes } = [])
    (original : collapse.node.isOriginal = true) :
    changed.gather enter read new =
      read collapse.node ++ (graph.ingredients collapse).flatMap (graph.gather enter read) := by
  have nested := (collapsed.keeps_wellFormed wellFormed fits).nested
  have old {r : Nat} (within : r < graph.size) :
      changed.gather enter read r = graph.gather enter read r :=
    collapsed.growth.gather_eq wellFormed.nested within
  have newNode := collapsed.table_new
  rw [gather_eq nested (v := new), held_eq newNode, held_eq newNode]
  · rw [ingredients, List.flatMap_assoc]
    congr 1
    refine List.flatMap_congr fun r isChild => ?_
    rcases fits.node_below r (Node.mem_references_of_mem_children isChild) with
      within | ⟨rfl, hasPart⟩
    · rw [if_neg (Nat.ne_of_lt within), old within]
      simp
    · obtain ⟨part, isPart⟩ := Option.isSome_iff_exists.mp hasPart
      obtain ⟨nodes, rfl, _, within⟩ := fits.part_shape part isPart
      have partNode := collapsed.table_part _ isPart
      rw [if_pos rfl, isPart, gather_eq nested, held_eq partNode, held_eq partNode, bare]
      · exact List.flatMap_congr fun r isPart => old (within r isPart)
      · intro node found
        rw [partNode] at found
        cases found
        exact enters _ rfl
  · intro node found
    rw [newNode] at found
    cases found
    exact enters _ original

variable (made : Made config labels graph collapse whole opened folded)
include made

/-- The leaves of a composite are those of its members that are not folded. -/
theorem Made.leaves_perm (enters : ∀ node : Node, node.isOriginal = true → enter node = true) :
    (changed.gather enter Node.leafVertices new).Perm
      ((whole ++ opened).flatMap (graph.gather enter Node.leafVertices)) := by
  have opens : opened.flatMap (graph.gather enter Node.leafVertices) =
      opened.flatMap fun m => graph.held Node.leafVertices m ++
        (graph.held Node.children m).flatMap (graph.gather enter Node.leafVertices) := by
    refine List.flatMap_congr fun m isOpened => gather_eq wellFormed.nested fun node found => ?_
    obtain ⟨_, found', kind⟩ := made.opens m isOpened
    rw [found] at found'
    cases found'
    refine enters node (bne_iff_ne.mpr ?_)
    rcases kind with isKind | isKind <;> simp [isKind]
  rw [collapsed.gather_new wellFormed fits enters (fun _ => rfl) made.original, made.leaf,
    List.flatMap_append, opens]
  refine ((made.ingredients.flatMap_right _).append_left _).trans ?_
  rw [List.flatMap_append, List.flatMap_assoc]
  exact (List.perm_append_comm_assoc _ _ _).trans
    ((List.flatMap_append_perm _ _ _).append_left _)

/-- A composite tests what its members test, when opened ones with a single exit
carry no condition. -/
theorem Made.mem_ownTests
    (unconditional : ∀ m ∈ opened, ∀ t, graph.exits m = [t] → graph.held Node.tested m = [])
    {m : Nat} (member : m ∈ collapse.members) (isTested : w ∈ graph.ownTests m) :
    w ∈ changed.ownTests new := by
  have opens (node : Node) (found : graph.table m = some node)
      (kind : node.kind = .leaf ∨ node.kind = .seq) : graph.ownTests m =
        graph.held Node.tested m ++ (graph.held Node.children m).flatMap graph.ownTests := by
    refine gather_eq wellFormed.nested fun node' found' => ?_
    rw [found] at found'
    cases found'
    rcases kind with isKind | isKind <;> simp [Node.isOriginal, isKind]
  rw [ownTests, collapsed.gather_new wellFormed fits (fun _ => id) (fun _ => rfl) made.original,
    List.mem_append, made.ingredients.flatMap_right _ |>.mem_iff, List.flatMap_append,
    List.mem_append, List.flatMap_assoc]
  rw [made.members.mem_iff, List.mem_append, List.mem_append] at member
  rcases member with (isWhole | isOpened) | isFolded
  · exact .inr (.inl (List.mem_flatMap.mpr ⟨m, isWhole, isTested⟩))
  · obtain ⟨node, found, kind⟩ := made.opens m isOpened
    rw [opens node found kind] at isTested
    rcases List.mem_append.mp isTested with own | below
    · refine .inl ?_
      rcases made.keeps m isOpened with kept | ⟨t, exits⟩
      · exact kept own
      · rw [unconditional m isOpened t exits] at own
        cases own
    · exact .inr (.inr (List.mem_flatMap.mpr ⟨m, isOpened, below⟩))
  · obtain ⟨_, v, vertex, head, outer, inner, foldable, kept⟩ := made.folds m isFolded
    obtain ⟨cond, found⟩ := foldable.leaf
    rw [opens _ found (.inl rfl), held_eq found, held_eq found] at isTested
    simp only [Node.children, Shape.children, List.flatMap_nil, List.append_nil] at isTested
    obtain ⟨condition, isCond, isVertex⟩ := Node.mem_tested.mp isTested
    have same := wellFormed.branchCond?_of_cond found (.inl rfl) isCond
    rw [foldable.inner_cond] at same
    cases same
    exact .inl (kept isVertex)

end New

end RegionGraph

end FlowRegions
