import FlowRegions.Proofs.Digraph.Drawing
import FlowRegions.Proofs.Digraph.Dot

/-!
Contract: when the text of a graph shows its live part.

The live part of a graph are the vertices that are not detached and the edges between
them.  A text shows it when its definitions are those of the vertices, each with its
label and shape, and its lines are the edges, as often as they are there.

Owns:
- `Digraph.dot_draws_livePart_iff`, for every library that does what it documents: the
  text of a graph shows its live part exactly if no vertex that is not detached has an
  edge to one that is.
-/

namespace FlowRegions.Digraph

variable {α : Type} {graph : Digraph α} {label : Nat → String}

def EdgesStayLive (graph : Digraph α) : Prop :=
  ∀ u t, t ∈ graph.successors u → graph.isDetached u = false → graph.isDetached t = false

def shownNodes (graph : Digraph α) (label : Nat → String) (blank : Bool) : List DotNode :=
  graph.indices.filterMap (graph.shownNode? label blank)

def liveNodes (graph : Digraph α) (label : Nat → String) : List DotNode :=
  graph.indices.filterMap (graph.dotNode? label)

def liveEdges (graph : Digraph α) : List (Nat × Nat) :=
  graph.openEdges.filter fun edge => !graph.isDetached edge.2

/-! ## Nodes -/

theorem id_of_shownNode? {blank : Bool} {v : Nat} {node : DotNode}
    (isShown : graph.shownNode? label blank v = some node) : node.id = v := by
  unfold shownNode? at isShown
  split at isShown
  · rename_i isRoot
    cases isShown
    exact isRoot.1.symm
  · exact id_of_dotNode? isShown

theorem shownNodes_false (graph : Digraph α) (label : Nat → String) :
    graph.shownNodes label false = graph.liveNodes label := by
  refine List.filterMap_congr fun v _ => ?_
  rw [shownNode?, if_neg (by simp)]

theorem nodup_shownNodes (graph : Digraph α) (label : Nat → String) (blank : Bool) :
    (graph.shownNodes label blank).Nodup :=
  List.nodup_range.filterMap fun _ _ _ isHere isThere =>
    (id_of_shownNode? isHere).symm.trans (id_of_shownNode? isThere)

theorem mem_shownNodes (consistent : graph.Consistent) {blank : Bool} {node : DotNode} :
    node ∈ graph.shownNodes label blank ↔ graph.shownNode? label blank node.id = some node := by
  rw [shownNodes, List.mem_filterMap]
  constructor
  · rintro ⟨v, _, isShown⟩
    rwa [id_of_shownNode? isShown]
  · intro isShown
    refine ⟨node.id, List.mem_range.mpr ?_, isShown⟩
    unfold shownNode? at isShown
    split at isShown
    · rename_i isRoot
      have := consistent.atLeastTwo
      rw [isRoot.1, root]
      omega
    · exact (mem_drawn.mp (mem_drawn_of_dotNode? isShown)).1

/-! ## Texts -/

section Library

variable {library : DotLibrary} {reader : DotReader} (documented : library.Documented reader)
include documented

theorem Shows.perm_nodes {edges : List (Nat × Nat)} {blank : Bool}
    {drawing : library.Multigraph} (consistent : graph.Consistent)
    (shows : Shows library graph label edges blank drawing) :
    (library.nodes drawing).Perm (graph.shownNodes label blank) :=
  (List.perm_ext_iff_of_nodup (documented.nodup drawing)
    (nodup_shownNodes graph label blank)).mpr fun node =>
      (shows.mem_nodes node).trans (mem_shownNodes consistent).symm

end Library

/-- The root keeps its node while edges stay among vertices that are not detached. -/
theorem LeavesRoot.eq_false {edges : List (Nat × Nat)} {blank : Bool}
    (leaves : graph.LeavesRoot edges blank)
    (attached : ∀ edge ∈ edges, graph.isDetached edge.2 = false) : blank = false := by
  unfold LeavesRoot at leaves
  cases isLast : graph.lastAtRoot? edges with
  | none =>
      rw [isLast] at leaves
      exact leaves
  | some edge =>
      rw [isLast] at leaves
      rcases leaves with ⟨_, own⟩ | ⟨detached, _⟩
      · exact own
      · have member := (List.mem_filter.mp (List.mem_of_mem_getLast? isLast)).1
        rw [attached edge member] at detached
        cases detached

/-- For every library that does what it documents, a graph has a text, and it shows the live
part exactly if no vertex that is not detached has an edge to one that is.  Whatever the edges,
the text defines every vertex but the root as itself or, if it is detached, not at all; every
edge that leaves a vertex that is not detached is a line, to the number of the root if its
target is detached; and the last edge that touches that number decides whether the root is
left blank. -/
theorem dot_draws_livePart_iff {library : DotLibrary} {reader : DotReader}
    (documented : library.Documented reader) (calls : List (Call α))
    (made : graph ∈ afterCalls calls) (name : String) (label? : Option (Nat → String)) :
    ∃ text blank, graph.dotWith library name label? = .ok text ∧
      graph.LeavesRoot graph.openEdges blank ∧
      (reader.definitions name text).Perm
        ((graph.shownNodes (label?.getD toString) blank).map DotNode.definition) ∧
      (reader.edges name text).Perm (graph.openEdges.map fun edge =>
        (DotNode.nameOf edge.1, DotNode.nameOf (graph.shownTarget edge.2))) ∧
      ((reader.definitions name text).Perm
          ((graph.liveNodes (label?.getD toString)).map DotNode.definition) ∧
        (reader.edges name text).Perm
          (graph.liveEdges.map (Prod.map DotNode.nameOf DotNode.nameOf)) ↔
        graph.EdgesStayLive) := by
  have consistent := (built_afterCalls calls graph made).consistent
  obtain ⟨blank, shows⟩ := shows_drawIn documented consistent (label?.getD toString)
  obtain ⟨text, isText, definitions, edges⟩ :=
    documented.read_marshal (graph.drawIn library (label?.getD toString)) name
  have definitionsShown := definitions.trans
    ((shows.perm_nodes documented consistent).map DotNode.definition)
  have edgesShown := edges.trans (shows.lines.map (Prod.map DotNode.nameOf DotNode.nameOf))
  rw [List.map_map] at edgesShown
  refine ⟨text, blank, ?_, shows.leavesRoot, definitionsShown, edgesShown, ?_, fun stayLive => ?_⟩
  · rw [dotWith, isText]
    rfl
  · -- The lines are as many as the open edges, so none of these is left out.
    rintro ⟨_, edgesLive⟩ u t edge attached
    have counts := (edgesShown.symm.trans edgesLive).length_eq
    rw [List.length_map, List.length_map, liveEdges, eq_comm,
      List.length_filter_eq_length_iff] at counts
    simpa using counts (u, t) (mem_openEdges.mpr ⟨edge, attached⟩)
  · have attached : ∀ edge ∈ graph.openEdges, graph.isDetached edge.2 = false :=
      fun edge isOpen => stayLive _ _ (mem_openEdges.mp isOpen).1 (mem_openEdges.mp isOpen).2
    rw [shows.leavesRoot.eq_false attached, shownNodes_false] at definitionsShown
    refine ⟨definitionsShown, edgesShown.trans (.of_eq ?_)⟩
    rw [liveEdges, List.filter_eq_self.mpr fun edge isOpen => by rw [attached edge isOpen]; rfl]
    refine List.map_congr_left fun edge isOpen => ?_
    rw [Function.comp_apply, shownTarget, attached edge isOpen]
    rfl

/-- A vertex that is linked to after it was detached. -/
def lateLink : List (Call Unit) :=
  [⟨0, .addVertex ()⟩, ⟨0, .addVertex ()⟩, ⟨0, .edit (.link 0 2)⟩, ⟨0, .edit (.detach 3)⟩,
    ⟨0, .edit (.link 2 3)⟩]

def withoutLateLink : Digraph Unit :=
  (((empty.addVertex ()).addVertex ()).addEdge 0 2).isolate 3

/-- The late edge is drawn to the root, which loses its label and its shape; without the edge,
the text shows the live part. -/
theorem dot_draws_livePart_iff_lateLink : ∃ text textBefore,
    (withoutLateLink.addEdge 2 3).dotWith textLibrary "g" (some fun _ => "") = .ok text ∧
    text = "digraph g \x7b\n\t// Node definitions.\n\tv0 [label=\"\"];\n" ++
      "\tv1 [\n\t\tlabel=\"term\"\n\t\tshape=doublecircle\n\t];\n" ++
      "\tv2 [\n\t\tlabel=\"\"\n\t\tshape=box\n\t];\n" ++
      "\n\t// Edge definitions.\n\tv0 -> v2;\n\tv2 -> v0;\n\x7d" ∧
    ("v0", [("label", "\"\"")]) ∈ textReader.definitions "g" text ∧
    ("v2", "v0") ∈ textReader.edges "g" text ∧
    ¬ ((textReader.definitions "g" text).Perm
        (((withoutLateLink.addEdge 2 3).liveNodes fun _ => "").map DotNode.definition) ∧
      (textReader.edges "g" text).Perm
        ((withoutLateLink.addEdge 2 3).liveEdges.map (Prod.map DotNode.nameOf DotNode.nameOf))) ∧
    withoutLateLink.dotWith textLibrary "g" (some fun _ => "") = .ok textBefore ∧
    (textReader.definitions "g" textBefore).Perm
      ((withoutLateLink.liveNodes fun _ => "").map DotNode.definition) ∧
    (textReader.edges "g" textBefore).Perm
      (withoutLateLink.liveEdges.map (Prod.map DotNode.nameOf DotNode.nameOf)) := by
  have made : withoutLateLink.addEdge 2 3 ∈ afterCalls lateLink := by decide +kernel
  have madeBefore : withoutLateLink ∈ afterCalls lateLink.dropLast := by decide +kernel
  obtain ⟨text, blank, isText, leaves, definitions, edges, late_iff⟩ :=
    dot_draws_livePart_iff documented_textLibrary lateLink made "g" (some fun _ => "")
  obtain ⟨textBefore, _, isTextBefore, _, _, _, early_iff⟩ :=
    dot_draws_livePart_iff documented_textLibrary lateLink.dropLast madeBefore "g"
      (some fun _ => "")
  have written : (withoutLateLink.addEdge 2 3).dotWith textLibrary "g" (some fun _ => "") =
      .ok ("digraph g \x7b\n\t// Node definitions.\n\tv0 [label=\"\"];\n" ++
        "\tv1 [\n\t\tlabel=\"term\"\n\t\tshape=doublecircle\n\t];\n" ++
        "\tv2 [\n\t\tlabel=\"\"\n\t\tshape=box\n\t];\n" ++
        "\n\t// Edge definitions.\n\tv0 -> v2;\n\tv2 -> v0;\n\x7d") := by
    decide +kernel
  have isBlank : blank = true := by
    rw [LeavesRoot, show (withoutLateLink.addEdge 2 3).lastAtRoot?
      (withoutLateLink.addEdge 2 3).openEdges = some (2, 3) by decide +kernel] at leaves
    rcases leaves with ⟨attached, _⟩ | ⟨_, atRoot | isBlank⟩
    · exact absurd attached (by decide +kernel)
    · cases atRoot
    · exact isBlank
  rw [isBlank] at definitions
  refine ⟨text, textBefore, isText, Except.ok.inj (isText.symm.trans written),
    definitions.mem_iff.mpr (by decide +kernel), edges.mem_iff.mpr (by decide +kernel),
    fun live => ?_, isTextBefore, early_iff.mpr ?_⟩
  · exact absurd (late_iff.mp live 2 3 (by decide +kernel) (by decide +kernel))
      (by decide +kernel)
  · have each : ∀ u < withoutLateLink.size, ∀ t ∈ withoutLateLink.successors u,
        withoutLateLink.isDetached t = false := by
      decide +kernel
    intro u t edge _
    exact each u (lt_size_of_mem_neighbours edge) t edge

end FlowRegions.Digraph
