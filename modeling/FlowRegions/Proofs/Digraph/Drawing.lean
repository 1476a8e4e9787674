import FlowRegions.Digraph.Drawing
import FlowRegions.Proofs.Digraph.Calls
import Mathlib.Data.List.Induction
import Mathlib.Data.List.Nodup

/-!
Contract: what a library is given to draw, and what its texts show of a graph.

The vertices that are not detached are drawn, each under its own number, and so is
every edge between them.  An edge to a detached vertex is drawn as well.  It leads to
the number of the root, which it leaves without label and shape until the next edge
that touches the root.

Owns:
- `DotLibrary.Documented`, what is relied on of a library and of its texts;
- `Digraph.openEdges`, the edges that are drawn, in the order they are drawn;
- `Digraph.Shows`, what is drawn when some of the edges are, with its step and run
  lemmas, and `Digraph.shows_drawIn`.

Does not own: any library, see `FlowRegions.Proofs.Digraph.Dot`.
-/

namespace FlowRegions

/-! ## Documented libraries -/

def DotNode.definition (node : DotNode) : String × List (String × String) :=
  (node.name, node.attributes)

/-- How texts are read: the definitions of nodes and the names at both ends of each
line, in a text under some name. -/
structure DotReader where
  definitions : String → String → List (String × List (String × String))
  edges : String → String → List (String × String)

namespace DotLibrary

/-- What is relied on of a library.  Nodes are told apart by number.  A node may be added
if its number is not in use.  Setting a new line adds it; its ends are added as well, or
take the place of the nodes with their numbers.  A text defines the nodes of its multigraph
and has its lines, each as often as it is there. -/
structure Documented (library : DotLibrary) (reader : DotReader) : Prop where
  nodes_empty : library.nodes library.empty = []
  lines_empty : library.lines library.empty = []
  distinct : ∀ drawing, ((library.nodes drawing).map DotNode.id).Nodup
  mem_addNode : ∀ {drawing node}, node.id ∉ (library.nodes drawing).map DotNode.id →
    ∀ other, other ∈ library.nodes (library.addNode drawing node) ↔
      other = node ∨ other ∈ library.nodes drawing
  lines_addNode : ∀ {drawing node}, node.id ∉ (library.nodes drawing).map DotNode.id →
    (library.lines (library.addNode drawing node)).Perm (library.lines drawing)
  lines_connect : ∀ drawing source target,
    (library.lines (library.connect drawing source target)).Perm
      ((source.id, target.id) :: library.lines drawing)
  mem_connect : ∀ drawing {source target node : DotNode}, node.id ≠ source.id →
    node.id ≠ target.id →
    (node ∈ library.nodes (library.connect drawing source target) ↔
      node ∈ library.nodes drawing)
  source_mem_connect : ∀ drawing source target,
    source ∈ library.nodes (library.connect drawing source target) ∨
      source.id = target.id ∧ target ∈ library.nodes (library.connect drawing source target)
  target_mem_connect : ∀ drawing source target,
    target ∈ library.nodes (library.connect drawing source target) ∨
      source.id = target.id ∧ source ∈ library.nodes (library.connect drawing source target)
  read_marshal : ∀ drawing name, ∃ text, library.marshal drawing name = .ok text ∧
    (reader.definitions name text).Perm ((library.nodes drawing).map DotNode.definition) ∧
    (reader.edges name text).Perm ((library.lines drawing).map
      (Prod.map DotNode.nameOf DotNode.nameOf))

namespace Documented

variable {library : DotLibrary} {reader : DotReader} (documented : library.Documented reader)
include documented

theorem nodup (drawing : library.Multigraph) : (library.nodes drawing).Nodup :=
  List.Nodup.of_map DotNode.id (documented.distinct drawing)

theorem eq_of_id_eq {drawing : library.Multigraph} {node other : DotNode}
    (isNode : node ∈ library.nodes drawing) (isOther : other ∈ library.nodes drawing)
    (same : node.id = other.id) : node = other :=
  List.inj_on_of_nodup_map (documented.distinct drawing) isNode isOther same

/-- Both ends of a new line are there, unless they are different nodes with one number. -/
theorem ends_mem_connect (drawing : library.Multigraph) (source target : DotNode)
    (agree : source.id = target.id → source = target) :
    source ∈ library.nodes (library.connect drawing source target) ∧
      target ∈ library.nodes (library.connect drawing source target) := by
  constructor
  · rcases documented.source_mem_connect drawing source target with isNode | ⟨same, isNode⟩
    · exact isNode
    · exact agree same ▸ isNode
  · rcases documented.target_mem_connect drawing source target with isNode | ⟨same, isNode⟩
    · exact isNode
    · exact agree same ▸ isNode

/-- A number is that of one node at most. -/
theorem mem_iff_of_id_eq {drawing : library.Multigraph} {node kept : DotNode}
    (isKept : kept ∈ library.nodes drawing) (same : node.id = kept.id) :
    node ∈ library.nodes drawing ↔ node = kept :=
  ⟨fun isNode => documented.eq_of_id_eq isNode isKept same, fun same => same ▸ isKept⟩

end Documented

end DotLibrary

namespace Digraph

variable {α : Type} {graph : Digraph α} {label : Nat → String}

/-! ## What is drawn -/

def openEdges (graph : Digraph α) : List (Nat × Nat) :=
  graph.drawn.flatMap fun u => (graph.successors u).map fun t => (u, t)

def shownTarget (graph : Digraph α) (t : Nat) : Nat :=
  if graph.isDetached t then root else t

theorem mem_drawn {v : Nat} :
    v ∈ graph.drawn ↔ v < graph.size ∧ graph.isDetached v = false := by
  simp [drawn, indices]

theorem mem_openEdges {u t : Nat} :
    (u, t) ∈ graph.openEdges ↔ t ∈ graph.successors u ∧ graph.isDetached u = false := by
  simp only [openEdges, List.mem_flatMap, mem_drawn]
  constructor
  · rintro ⟨u', ⟨_, attached⟩, isEdge⟩
    obtain ⟨t', edge, same⟩ := List.mem_map.mp isEdge
    cases same
    exact ⟨edge, attached⟩
  · rintro ⟨edge, attached⟩
    exact ⟨u, ⟨lt_size_of_mem_neighbours edge, attached⟩, List.mem_map.mpr ⟨t, edge, rfl⟩⟩

theorem id_of_dotNode? {v : Nat} {node : DotNode} (isNode : graph.dotNode? label v = some node) :
    node.id = v := by
  unfold dotNode? at isNode
  split at isNode
  · cases isNode
  · split_ifs at isNode
    all_goals
      cases isNode
      rfl

theorem isSome_dotNode?_iff (label : Nat → String) {v : Nat} :
    (graph.dotNode? label v).isSome = true ↔ v ∈ graph.drawn := by
  rw [mem_drawn]
  unfold dotNode? isDetached
  cases found : graph.vertex? v with
  | none =>
      have beyond := (vertex?_eq_none_iff graph v).mp found
      exact iff_of_false (by simp) fun drawn => by omega
  | some vertex =>
      have within : v < graph.size := by
        by_contra beyond
        rw [(vertex?_eq_none_iff graph v).mpr (by omega)] at found
        cases found
      dsimp only
      cases detached : vertex.detached with
      | true => simp [detached]
      | false =>
          refine iff_of_true ?_ ⟨within, by simp [detached]⟩
          rw [if_neg (by simp)]
          split_ifs <;> rfl

theorem dotNode?_of_mem_drawn (label : Nat → String) {v : Nat} (isDrawn : v ∈ graph.drawn) :
    graph.dotNode? label v = some (graph.dotNode label v) := by
  obtain ⟨node, isNode⟩ := Option.isSome_iff_exists.mp ((isSome_dotNode?_iff label).mpr isDrawn)
  rw [dotNode, isNode]
  rfl

theorem mem_drawn_of_dotNode? {v : Nat} {node : DotNode}
    (isNode : graph.dotNode? label v = some node) : v ∈ graph.drawn :=
  (isSome_dotNode?_iff label).mp (isNode ▸ rfl)

theorem id_dotNode (label : Nat → String) {v : Nat} (isDrawn : v ∈ graph.drawn) :
    (graph.dotNode label v).id = v :=
  id_of_dotNode? (dotNode?_of_mem_drawn label isDrawn)

/-- The blank node stands for a detached vertex. -/
theorem dotNode_of_detached (label : Nat → String) {v : Nat}
    (detached : graph.isDetached v = true) : graph.dotNode label v = {} := by
  have notDrawn : ¬ v ∈ graph.drawn := fun isDrawn => by
    rw [(mem_drawn.mp isDrawn).2] at detached
    cases detached
  rw [dotNode, Option.not_isSome_iff_eq_none.mp
    fun isSome => notDrawn ((isSome_dotNode?_iff label).mp isSome)]
  rfl

theorem nodup_drawn (graph : Digraph α) : graph.drawn.Nodup :=
  List.nodup_range.filter _

/-- The open edges are drawn one after the other, when all nodes are there. -/
theorem drawIn_eq_foldl (library : DotLibrary) (graph : Digraph α) (label : Nat → String) :
    graph.drawIn library label = graph.openEdges.foldl
      (fun drawing edge =>
        library.connect drawing (graph.dotNode label edge.1) (graph.dotNode label edge.2))
      (graph.drawn.foldl (fun drawing v => library.addNode drawing (graph.dotNode label v))
        library.empty) := by
  simp only [drawIn, openEdges, List.foldl_flatMap, List.foldl_map]

/-! ## Node by node -/

section Library

variable {library : DotLibrary} {reader : DotReader} (documented : library.Documented reader)
include documented

/-- Vertices that are drawn are added one after the other: each has a number of its own. -/
theorem nodes_foldl {vertices : List Nat} (distinct : vertices.Nodup)
    (areDrawn : ∀ v ∈ vertices, v ∈ graph.drawn) :
    (∀ node, node ∈ library.nodes (vertices.foldl
        (fun drawing v => library.addNode drawing (graph.dotNode label v)) library.empty) ↔
      node.id ∈ vertices ∧ graph.dotNode? label node.id = some node) ∧
    library.lines (vertices.foldl
      (fun drawing v => library.addNode drawing (graph.dotNode label v)) library.empty) = [] := by
  induction vertices using List.reverseRecOn with
  | nil => simp [documented.nodes_empty, documented.lines_empty]
  | append_singleton vertices v inductionHypothesis =>
      obtain ⟨distinctBefore, _, notBefore⟩ := List.nodup_append.mp distinct
      have isDrawn : v ∈ graph.drawn := areDrawn v (by simp)
      obtain ⟨nodes, lines⟩ := inductionHypothesis distinctBefore
        fun w member => areDrawn w (List.mem_append_left _ member)
      rw [List.foldl_append, List.foldl_cons, List.foldl_nil]
      generalize vertices.foldl _ _ = before at nodes lines
      have unused : (graph.dotNode label v).id ∉ (library.nodes before).map DotNode.id := by
        intro used
        obtain ⟨other, isNode, same⟩ := List.mem_map.mp used
        rw [id_dotNode label isDrawn] at same
        exact notBefore v (same ▸ ((nodes other).mp isNode).1) v List.mem_cons_self rfl
      refine ⟨fun node => ?_, List.perm_nil.mp (lines ▸ documented.lines_addNode unused)⟩
      rw [documented.mem_addNode unused, nodes, List.mem_append, List.mem_singleton,
        or_and_right, or_comm]
      refine or_congr_right ⟨?_, ?_⟩
      · rintro rfl
        rw [id_dotNode label isDrawn]
        exact ⟨rfl, dotNode?_of_mem_drawn label isDrawn⟩
      · rintro ⟨isHere, isNode⟩
        rw [isHere, dotNode?_of_mem_drawn label isDrawn] at isNode
        exact (Option.some.inj isNode).symm

end Library

/-! ## Edge by edge -/

def lastAtRoot? (graph : Digraph α) (edges : List (Nat × Nat)) : Option (Nat × Nat) :=
  (edges.filter fun edge =>
    edge.1 == root || edge.2 == root || graph.isDetached edge.2).getLast?

/-- Whether some edges may leave the root blank.  The last of them that touches its number
decides: an edge from another vertex to a detached one leaves it blank, and so may an edge
from the root to a detached one, whose ends share the number. -/
def LeavesRoot (graph : Digraph α) (edges : List (Nat × Nat)) (blank : Bool) : Prop :=
  match graph.lastAtRoot? edges with
  | none => blank = false
  | some edge =>
    graph.isDetached edge.2 = false ∧ blank = false ∨
      graph.isDetached edge.2 = true ∧ (edge.1 = root ∨ blank = true)

def shownNode? (graph : Digraph α) (label : Nat → String) (blank : Bool) (v : Nat) :
    Option DotNode :=
  if v = root ∧ blank = true then some {} else graph.dotNode? label v

/-- What is drawn when some edges are: every vertex as itself, save that the root may be
blank, and each edge at the number it leads to. -/
structure Shows (library : DotLibrary) (graph : Digraph α) (label : Nat → String)
    (edges : List (Nat × Nat)) (blank : Bool) (drawing : library.Multigraph) : Prop where
  leavesRoot : graph.LeavesRoot edges blank
  mem_nodes : ∀ node, node ∈ library.nodes drawing ↔
    graph.shownNode? label blank node.id = some node
  lines : (library.lines drawing).Perm
    (edges.map fun edge => (edge.1, graph.shownTarget edge.2))

theorem lastAtRoot?_concat (graph : Digraph α) (edges : List (Nat × Nat)) (u t : Nat) :
    graph.lastAtRoot? (edges ++ [(u, t)]) =
      if u = root ∨ t = root ∨ graph.isDetached t = true then some (u, t)
      else graph.lastAtRoot? edges := by
  rw [lastAtRoot?, List.filter_append]
  split_ifs with touches
  · rw [List.filter_cons_of_pos (by simpa [or_assoc] using touches)]
    simp
  · rw [List.filter_cons_of_neg (by simpa [or_assoc] using touches)]
    simp [lastAtRoot?]

theorem shownNode?_of_mem_drawn (label : Nat → String) {blank : Bool} {v : Nat}
    (isDrawn : v ∈ graph.drawn) (own : v = root → blank = false) :
    graph.shownNode? label blank v = some (graph.dotNode label v) := by
  rw [shownNode?, if_neg fun both => by simp [own both.1] at both,
    dotNode?_of_mem_drawn label isDrawn]

theorem id_dotNode_target (label : Nat → String) {t : Nat} (within : t < graph.size) :
    (graph.dotNode label t).id = graph.shownTarget t := by
  unfold shownTarget
  cases detached : graph.isDetached t with
  | true =>
      rw [dotNode_of_detached label detached]
      rfl
  | false => exact id_dotNode label (mem_drawn.mpr ⟨within, detached⟩)

section Step

variable {library : DotLibrary} {reader : DotReader} (documented : library.Documented reader)
  {edges : List (Nat × Nat)} {blank blankAfter : Bool} {drawing : library.Multigraph} {u t : Nat}
include documented

/-- Drawing an edge is about the numbers of its ends only. -/
theorem Shows.connect_of (shows : Shows library graph label edges blank drawing)
    (uDrawn : u ∈ graph.drawn) (within : t < graph.size)
    (leaves : graph.LeavesRoot (edges ++ [(u, t)]) blankAfter)
    (stays : u ≠ root → graph.shownTarget t ≠ root → blankAfter = blank)
    (ends : ∀ v, v = u ∨ v = graph.shownTarget t → ∃ kept,
      kept ∈ library.nodes
        (library.connect drawing (graph.dotNode label u) (graph.dotNode label t)) ∧
      kept.id = v ∧ graph.shownNode? label blankAfter v = some kept) :
    Shows library graph label (edges ++ [(u, t)]) blankAfter
      (library.connect drawing (graph.dotNode label u) (graph.dotNode label t)) where
  leavesRoot := leaves
  mem_nodes := by
    intro node
    by_cases touched : node.id = u ∨ node.id = graph.shownTarget t
    · obtain ⟨kept, isKept, same, shown⟩ := ends node.id touched
      rw [documented.mem_iff_of_id_eq isKept same.symm, shown, Option.some.injEq, eq_comm]
    · obtain ⟨notSource, notTarget⟩ := not_or.mp touched
      rw [documented.mem_connect drawing (by rwa [id_dotNode label uDrawn])
        (by rwa [id_dotNode_target label within]), shows.mem_nodes, shownNode?, shownNode?]
      by_cases atRoot : node.id = root
      · rw [stays (fun isRoot => notSource (atRoot.trans isRoot.symm))
          fun isRoot => notTarget (atRoot.trans isRoot.symm)]
      · rw [if_neg fun both => atRoot both.1, if_neg fun both => atRoot both.1]
  lines := by
    refine (documented.lines_connect drawing _ _).trans ?_
    rw [id_dotNode label uDrawn, id_dotNode_target label within, List.map_append]
    exact (shows.lines.cons _).trans (List.perm_append_singleton _ _).symm

/-- Both ends of an edge between vertices that are not detached are drawn as themselves, so a
number they share is that of one node. -/
theorem Shows.connect_attached (shows : Shows library graph label edges blank drawing)
    (uDrawn : u ∈ graph.drawn) (tDrawn : t ∈ graph.drawn) :
    Shows library graph label (edges ++ [(u, t)]) (if u = root ∨ t = root then false else blank)
      (library.connect drawing (graph.dotNode label u) (graph.dotNode label t)) := by
  obtain ⟨within, attached⟩ := mem_drawn.mp tDrawn
  have shown : graph.shownTarget t = t := by simp [shownTarget, attached]
  have sourceId := id_dotNode label uDrawn
  have targetId := id_dotNode label tDrawn
  obtain ⟨sourceMem, targetMem⟩ := documented.ends_mem_connect drawing
    (graph.dotNode label u) (graph.dotNode label t) fun same => by
      rw [sourceId, targetId] at same
      rw [same]
  apply shows.connect_of documented uDrawn within
  · rw [LeavesRoot, lastAtRoot?_concat]
    by_cases touches : u = root ∨ t = root
    · rw [if_pos touches, if_pos (touches.imp_right .inl)]
      exact .inl ⟨attached, rfl⟩
    · have passes : ¬ (u = root ∨ t = root ∨ graph.isDetached t = true) := by
        simpa [attached] using touches
      rw [if_neg touches, if_neg passes]
      exact shows.leavesRoot
  · intro notSource notTarget
    rw [if_neg (by rw [shown] at notTarget; simp [notSource, notTarget])]
  · rw [shown]
    rintro v (rfl | rfl)
    · exact ⟨_, sourceMem, sourceId,
        shownNode?_of_mem_drawn label uDrawn fun isRoot => if_pos (.inl isRoot)⟩
    · exact ⟨_, targetMem, targetId,
        shownNode?_of_mem_drawn label tDrawn fun isRoot => if_pos (.inr isRoot)⟩

/-- An edge to a detached vertex is drawn to the number of the root.  If it comes from the root,
its ends are two nodes with one number, and either may be kept. -/
theorem Shows.connect_detached (shows : Shows library graph label edges blank drawing)
    (uDrawn : u ∈ graph.drawn) (within : t < graph.size) (detached : graph.isDetached t = true) :
    ∃ blankAfter, Shows library graph label (edges ++ [(u, t)]) blankAfter
      (library.connect drawing (graph.dotNode label u) (graph.dotNode label t)) := by
  have shown : graph.shownTarget t = root := by simp [shownTarget, detached]
  have sourceId := id_dotNode label uDrawn
  have targetId := (id_dotNode_target label within).trans shown
  have leaves {blankAfter : Bool} (settled : u = root ∨ blankAfter = true) :
      graph.LeavesRoot (edges ++ [(u, t)]) blankAfter := by
    rw [LeavesRoot, lastAtRoot?_concat, if_pos (.inr (.inr detached))]
    exact .inr ⟨detached, settled⟩
  have blankShown : graph.shownNode? label true root = some (graph.dotNode label t) := by
    rw [shownNode?, if_pos ⟨rfl, rfl⟩, dotNode_of_detached label detached]
  by_cases fromRoot : u = root
  · subst fromRoot
    have atRoot {v : Nat} (isEnd : v = root ∨ v = graph.shownTarget t) : v = root :=
      isEnd.elim id fun isTarget => isTarget.trans shown
    rcases documented.source_mem_connect drawing (graph.dotNode label root)
      (graph.dotNode label t) with isSource | ⟨_, isTarget⟩
    · refine ⟨false, shows.connect_of documented uDrawn within (leaves (.inl rfl))
        (fun notRoot => absurd rfl notRoot) fun v isEnd => ?_⟩
      rw [atRoot isEnd]
      exact ⟨_, isSource, sourceId, shownNode?_of_mem_drawn label uDrawn fun _ => rfl⟩
    · refine ⟨true, shows.connect_of documented uDrawn within (leaves (.inl rfl))
        (fun notRoot => absurd rfl notRoot) fun v isEnd => ?_⟩
      rw [atRoot isEnd]
      exact ⟨_, isTarget, targetId, blankShown⟩
  · obtain ⟨sourceMem, targetMem⟩ := documented.ends_mem_connect drawing
      (graph.dotNode label u) (graph.dotNode label t) fun same => by
        rw [sourceId, targetId] at same
        exact absurd same fromRoot
    refine ⟨true, shows.connect_of documented uDrawn within (leaves (.inr rfl))
      (fun _ notRoot => absurd shown notRoot) ?_⟩
    rw [shown]
    rintro v (rfl | rfl)
    · exact ⟨_, sourceMem, sourceId,
        shownNode?_of_mem_drawn label uDrawn fun isRoot => absurd isRoot fromRoot⟩
    · exact ⟨_, targetMem, targetId, blankShown⟩

/-- One more edge is drawn. -/
theorem Shows.connect (shows : Shows library graph label edges blank drawing)
    (uDrawn : u ∈ graph.drawn) (within : t < graph.size) :
    ∃ blankAfter, Shows library graph label (edges ++ [(u, t)]) blankAfter
      (library.connect drawing (graph.dotNode label u) (graph.dotNode label t)) := by
  cases detached : graph.isDetached t with
  | false =>
      exact ⟨_, shows.connect_attached documented uDrawn (mem_drawn.mpr ⟨within, detached⟩)⟩
  | true => exact shows.connect_detached documented uDrawn within detached

/-- When the nodes are there, the edges are drawn one after the other. -/
theorem shows_foldl {before : library.Multigraph}
    (start : Shows library graph label [] false before)
    (drawable : ∀ edge ∈ edges, edge.1 ∈ graph.drawn ∧ edge.2 < graph.size) :
    ∃ blank, Shows library graph label edges blank (edges.foldl
      (fun drawing edge =>
        library.connect drawing (graph.dotNode label edge.1) (graph.dotNode label edge.2))
      before) := by
  induction edges using List.reverseRecOn with
  | nil => exact ⟨false, start⟩
  | append_singleton edges edge inductionHypothesis =>
      obtain ⟨isDrawn, within⟩ := drawable edge (by simp)
      obtain ⟨blank, shows⟩ := inductionHypothesis fun other member =>
        drawable other (List.mem_append_left _ member)
      rw [List.foldl_append]
      exact shows.connect documented isDrawn within

/-- The multigraph of a graph shows all its open edges. -/
theorem shows_drawIn (consistent : graph.Consistent) (label : Nat → String) :
    ∃ blank, Shows library graph label graph.openEdges blank (graph.drawIn library label) := by
  rw [drawIn_eq_foldl]
  obtain ⟨nodes, lines⟩ := nodes_foldl documented (nodup_drawn graph) fun v isDrawn => isDrawn
  refine shows_foldl documented ⟨rfl, fun node => ?_, by rw [lines]; rfl⟩ fun edge isOpen => ?_
  · rw [nodes, shownNode?, if_neg (by simp), and_iff_right_iff_imp]
    exact mem_drawn_of_dotNode?
  · obtain ⟨isEdge, attached⟩ := mem_openEdges.mp isOpen
    exact ⟨mem_drawn.mpr ⟨lt_size_of_mem_neighbours isEdge, attached⟩,
      consistent.inRange _ _ isEdge⟩

end Step

end Digraph

end FlowRegions
