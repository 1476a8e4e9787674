import FlowRegions.Digraph.Dot
import FlowRegions.Proofs.Digraph.Drawing
import Mathlib.Data.List.TakeWhile

/-!
Contract: the texts that are written line by line can be read again.

Labels stand between quotes and numbers are digits, so no line of a text holds a
line break.  A text under a name is cut into lines behind its opening, and each line
tells by its first characters what it is.

Owns:
- `textReader`, which reads texts, and `documented_textLibrary`: the library that
  writes them does what is documented.
-/

namespace FlowRegions

/-! ## Texts on one line -/

namespace Text

theorem newline_notMem_toDigits (n : Nat) : '\n' ∉ Nat.toDigits 16 n := by
  have notDigit : ∀ k < 16, '\n' ≠ Nat.digitChar k := by decide
  induction n using Nat.strongRecOn with
  | ind n inductionHypothesis =>
      by_cases small : n < 16
      · rw [Nat.toDigits_of_lt_base small, List.mem_singleton]
        exact notDigit n small
      · rw [Nat.toDigits_of_base_le (by decide) (by omega), List.mem_append,
          List.mem_singleton, not_or]
        exact ⟨inductionHypothesis _ (by omega), notDigit _ (Nat.mod_lt _ (by decide))⟩

theorem newline_notMem_hexDigits (width n : Nat) : '\n' ∉ (hexDigits width n).toList := by
  rw [hexDigits, String.toList_ofList, List.mem_append, not_or]
  exact ⟨fun member => absurd (List.eq_of_mem_replicate member) (by decide),
    newline_notMem_toDigits n⟩

theorem ne_newline_of_escapeLetter? {n : Nat} {letter : Char}
    (isLetter : escapeLetter? n = some letter) : '\n' ≠ letter := by
  unfold escapeLetter? at isLetter
  split at isLetter
  all_goals
    cases isLetter
    try decide

theorem newline_notMem_escape (c : Char) : '\n' ∉ (escape c).toList := by
  have numbered {mark : String} (width : Nat) (plain : '\n' ∉ mark.toList) :
      '\n' ∉ (mark ++ hexDigits width c.toNat).toList := by
    rw [String.toList_append, List.mem_append, not_or]
    exact ⟨plain, newline_notMem_hexDigits width c.toNat⟩
  unfold escape
  split
  · rename_i special
    rw [String.toList_ofList]
    intro member
    have isChar : c = '\n' := by simpa [eq_comm] using member
    rw [isChar] at special
    exact absurd special (by decide)
  split
  · rename_i printable
    rw [String.toList_singleton, List.mem_singleton]
    rintro rfl
    exact absurd printable (by decide +kernel)
  split
  · rename_i letter isLetter
    rw [String.toList_ofList, List.mem_cons, List.mem_singleton, not_or]
    exact ⟨by decide, ne_newline_of_escapeLetter? isLetter⟩
  split_ifs
  · exact numbered 2 (by decide)
  · exact numbered 4 (by decide)
  · exact numbered 8 (by decide)

/-- Text between quotes stands on one line. -/
theorem newline_notMem_quote (text : String) : '\n' ∉ (quote text).toList := by
  rw [quote, String.toList_append, String.toList_append, String.toList_join]
  simp only [List.mem_append, List.mem_flatMap, List.mem_map, not_or, not_exists, not_and]
  refine ⟨⟨by decide, ?_⟩, by decide⟩
  rintro _ ⟨c, _, rfl⟩
  exact newline_notMem_escape c

end Text

/-! ## Reading -/

structure DotReading where
  definitions : List (String × List (String × String)) := []
  edges : List (String × String) := []

namespace DotReading

def pairOf (chars : List Char) : String × String :=
  (String.ofList (chars.takeWhile (· != '=')),
    String.ofList ((chars.dropWhile (· != '=')).drop 1))

def addPair (reading : DotReading) (pair : String × String) : DotReading :=
  match reading.definitions with
  | [] => reading
  | (name, pairs) :: rest => { reading with definitions := (name, pairs ++ [pair]) :: rest }

def readNamed (reading : DotReading) (name : String) : List Char → DotReading
  | [' ', '['] => { reading with definitions := (name, []) :: reading.definitions }
  | ' ' :: '[' :: rest =>
    let pair := pairOf (rest.take (rest.length - 2))
    { reading with definitions := (name, [pair]) :: reading.definitions }
  | ' ' :: '-' :: '>' :: ' ' :: rest =>
    let target := String.ofList (rest.take (rest.length - 1))
    { reading with edges := (name, target) :: reading.edges }
  | _ => reading

def readLine (reading : DotReading) : List Char → DotReading
  | '\t' :: '\t' :: rest => reading.addPair (pairOf rest)
  | '\t' :: 'v' :: rest =>
    reading.readNamed (String.ofList ('v' :: rest.takeWhile Char.isDigit))
      (rest.dropWhile Char.isDigit)
  | _ => reading

def ofText (name text : String) : DotReading :=
  let chars := text.toList.drop (Drawing.opening name).toList.length
  (chars.splitOn '\n').foldl readLine {}

end DotReading

def textReader : DotReader where
  definitions name text := (DotReading.ofText name text).definitions
  edges name text := (DotReading.ofText name text).edges

/-! ## Reading what was written -/

theorem DotNode.toList_nameOf (id : Nat) : (nameOf id).toList = 'v' :: Nat.toDigits 10 id := by
  rw [nameOf, String.toList_append, Nat.toString_eq_repr, Nat.toList_repr]
  rfl

namespace DotReading

variable {reading : DotReading}

theorem pairOf_attributeText {key : String} (value : String) (plain : '=' ∉ key.toList) :
    pairOf (Drawing.attributeText (key, value)).toList = (key, value) := by
  have passes : ∀ c ∈ key.toList, (c != '=') = true := fun c member => by
    rw [bne_iff_ne]
    rintro rfl
    exact plain member
  have chars : (Drawing.attributeText (key, value)).toList = key.toList ++ '=' :: value.toList := by
    simp [Drawing.attributeText]
  rw [pairOf, chars, List.takeWhile_append_of_pos passes, List.dropWhile_append_of_pos passes]
  simp

/-- The name of a node ends where its number does. -/
theorem readLine_named (id : Nat) (rest : List Char) :
    reading.readLine ('\t' :: ((DotNode.nameOf id).toList ++ ' ' :: rest)) =
      reading.readNamed (DotNode.nameOf id) (' ' :: rest) := by
  have digits : ∀ c ∈ Nat.toDigits 10 id, c.isDigit = true :=
    fun c member => Nat.isDigit_of_mem_toDigits (by decide) (by decide) member
  rw [DotNode.toList_nameOf, List.cons_append, readLine,
    List.takeWhile_append_of_pos digits, List.dropWhile_append_of_pos digits]
  have isName : String.ofList ('v' :: (Nat.toDigits 10 id ++ [])) = DotNode.nameOf id := by
    rw [← String.toList_inj, String.toList_ofList, DotNode.toList_nameOf, List.append_nil]
  rw [← isName]
  rfl

theorem readLine_edgeLine (line : Nat × Nat) :
    reading.readLine (Drawing.edgeLine line).toList =
      { reading with edges := line.map DotNode.nameOf DotNode.nameOf :: reading.edges } := by
  have chars : (Drawing.edgeLine line).toList = '\t' :: ((DotNode.nameOf line.1).toList ++
      ' ' :: '-' :: '>' :: ' ' :: ((DotNode.nameOf line.2).toList ++ [';'])) := by
    simp [Drawing.edgeLine]
  rw [chars, readLine_named]
  simp [readNamed, Prod.map]

theorem readNamed_pair (name : String) (pair : List Char) :
    reading.readNamed name (' ' :: '[' :: (pair ++ [']', ';'])) =
      { reading with definitions := (name, [pairOf pair]) :: reading.definitions } := by
  cases pair with
  | nil => rfl
  | cons first rest => simp [readNamed]

/-- A definition is read on one line or on several, as it was written. -/
theorem foldl_nodeLines (node : DotNode) :
    ((Drawing.nodeLines node).map String.toList).foldl readLine reading =
      { reading with definitions := node.definition :: reading.definitions } := by
  have label : pairOf (Drawing.attributeText ("label", Text.quote node.label)).toList =
      ("label", Text.quote node.label) := pairOf_attributeText _ (by decide)
  cases isShape : node.shape with
  | none =>
      have attributes : node.attributes = [("label", Text.quote node.label)] := by
        rw [DotNode.attributes, isShape]
        rfl
      have chars : ("\t" ++ node.name ++ " [" ++
          Drawing.attributeText ("label", Text.quote node.label) ++ "];").toList =
          '\t' :: ((DotNode.nameOf node.id).toList ++ ' ' :: '[' ::
            ((Drawing.attributeText ("label", Text.quote node.label)).toList ++ [']', ';'])) := by
        simp [DotNode.name]
      rw [Drawing.nodeLines, attributes]
      simp only [List.map_cons, List.map_nil, List.foldl_cons, List.foldl_nil, chars]
      rw [readLine_named, readNamed_pair, label, DotNode.definition, attributes]
      rfl
  | some shape =>
      have attributes : node.attributes =
          [("label", Text.quote node.label), ("shape", shape.text)] := by
        rw [DotNode.attributes, isShape]
        rfl
      have shapePair : pairOf (Drawing.attributeText ("shape", shape.text)).toList =
          ("shape", shape.text) := pairOf_attributeText _ (by decide)
      have chars : ("\t" ++ node.name ++ " [").toList =
          '\t' :: ((DotNode.nameOf node.id).toList ++ ' ' :: ['[']) := by
        simp [DotNode.name]
      have indented (text : String) : ("\t\t" ++ text).toList = '\t' :: '\t' :: text.toList := by
        simp
      rw [Drawing.nodeLines, attributes]
      simp only [List.map_cons, List.map_nil, List.cons_append, List.nil_append,
        List.foldl_cons, List.foldl_nil, chars, indented]
      rw [readLine_named]
      simp only [readNamed, readLine, addPair, label, shapePair, DotNode.definition, attributes]
      rfl

theorem foldl_definitions (nodes : List DotNode) (reading : DotReading) :
    ((nodes.flatMap Drawing.nodeLines).map String.toList).foldl readLine reading =
      { reading with
        definitions := (nodes.map DotNode.definition).reverse ++ reading.definitions } := by
  induction nodes generalizing reading with
  | nil => rfl
  | cons node rest inductionHypothesis =>
      rw [List.flatMap_cons, List.map_append, List.foldl_append, foldl_nodeLines,
        inductionHypothesis, List.map_cons, List.reverse_cons, List.append_assoc]
      rfl

theorem foldl_edges (lines : List (Nat × Nat)) (reading : DotReading) :
    ((lines.map Drawing.edgeLine).map String.toList).foldl readLine reading =
      { reading with
        edges := (lines.map (Prod.map DotNode.nameOf DotNode.nameOf)).reverse ++
          reading.edges } := by
  induction lines generalizing reading with
  | nil => rfl
  | cons line rest inductionHypothesis =>
      rw [List.map_cons, List.map_cons, List.foldl_cons, readLine_edgeLine,
        inductionHypothesis, List.map_cons, List.reverse_cons, List.append_assoc]
      rfl

end DotReading

/-! ## The library of texts -/

namespace Drawing

theorem newline_notMem_nameOf (id : Nat) : '\n' ∉ (DotNode.nameOf id).toList := by
  rw [DotNode.toList_nameOf, List.mem_cons, not_or]
  refine ⟨by decide, fun member => ?_⟩
  exact absurd (Nat.isDigit_of_mem_toDigits (by decide) (by decide) member) (by decide)

theorem newline_notMem_attributes {node : DotNode} {pair : String × String}
    (member : pair ∈ node.attributes) : '\n' ∉ (attributeText pair).toList := by
  simp only [DotNode.attributes, List.mem_cons, Option.mem_toList, Option.map_eq_some_iff]
    at member
  rw [attributeText]
  rcases member with rfl | ⟨shape, _, rfl⟩
  · simp [Text.newline_notMem_quote]
  · cases shape <;> decide

theorem newline_notMem_nodeLines {node : DotNode} {line : String}
    (member : line ∈ nodeLines node) : '\n' ∉ line.toList := by
  have name := newline_notMem_nameOf node.id
  have plain := @newline_notMem_attributes node
  unfold nodeLines at member
  split at member
  · rename_i pair isPair
    rw [List.mem_singleton] at member
    rw [member]
    simp [DotNode.name, name, plain (isPair ▸ List.mem_singleton_self pair)]
  · rw [List.mem_cons, List.mem_append, List.mem_map, List.mem_singleton] at member
    rcases member with rfl | ⟨pair, isPair, rfl⟩ | rfl
    · simp [DotNode.name, name]
    · simp [plain isPair]
    · decide

theorem newline_notMem_edgeLine (line : Nat × Nat) : '\n' ∉ (edgeLine line).toList := by
  simp [edgeLine, newline_notMem_nameOf]

theorem newline_notMem_body {drawing : Drawing} {line : String}
    (member : line ∈ drawing.body) : '\n' ∉ line.toList := by
  rw [body, List.mem_append, List.mem_append, List.mem_singleton] at member
  rcases member with (isNode | isLine) | rfl
  · split at isNode
    · cases isNode
    · rcases List.mem_cons.mp isNode with rfl | isNode
      · decide
      · obtain ⟨node, _, isNode⟩ := List.mem_flatMap.mp isNode
        exact newline_notMem_nodeLines isNode
  · split at isLine
    · cases isLine
    · rcases List.mem_cons.mp isLine with rfl | isLine
      · decide
      · rcases List.mem_cons.mp isLine with rfl | isLine
        · decide
        · obtain ⟨edge, _, rfl⟩ := List.mem_map.mp isLine
          exact newline_notMem_edgeLine edge
  · decide

/-- A text is cut into the lines it was made of. -/
theorem splitOn_render (drawing : Drawing) (name : String) :
    ((drawing.render name).toList.drop (opening name).toList.length).splitOn '\n' =
      drawing.body.map String.toList := by
  have lines : (drawing.render name).toList =
      (opening name).toList ++ ['\n'].intercalate (drawing.body.map String.toList) := by
    rw [render, String.toList_append, String.toList_intercalate]
    rfl
  rw [lines, List.drop_left]
  refine List.splitOn_intercalate '\n' ?_ (by simp [body])
  intro _ member
  obtain ⟨line, isLine, rfl⟩ := List.mem_map.mp member
  exact newline_notMem_body isLine

/-- A part of a text stands only where its drawing has something to tell, and its heading is
passed over. -/
theorem foldl_part {ν : Type} (source : List ν) (headed items : List String)
    (nothing : source = [] → items = [])
    (passes : ∀ reading : DotReading,
      (headed.map String.toList).foldl DotReading.readLine reading =
        (items.map String.toList).foldl DotReading.readLine reading)
    (reading : DotReading) :
    ((if source.isEmpty then [] else headed).map String.toList).foldl
        DotReading.readLine reading =
      (items.map String.toList).foldl DotReading.readLine reading := by
  split
  · rename_i empty
    rw [nothing (List.isEmpty_iff.mp empty)]
  · exact passes reading

/-- A text is read as the nodes and the lines of its drawing, latest first. -/
theorem ofText_render (drawing : Drawing) (name : String) :
    DotReading.ofText name (drawing.render name) =
      ⟨(drawing.sortedNodes.map DotNode.definition).reverse,
        (drawing.sortedLines.map (Prod.map DotNode.nameOf DotNode.nameOf)).reverse⟩ := by
  have nodes := foldl_part drawing.nodes
    ("\t// Node definitions." :: drawing.sortedNodes.flatMap nodeLines)
    (drawing.sortedNodes.flatMap nodeLines)
    (fun empty => by rw [sortedNodes, empty]; rfl) fun _ => rfl
  have lines := foldl_part drawing.lines
    ("" :: "\t// Edge definitions." :: drawing.sortedLines.map edgeLine)
    (drawing.sortedLines.map edgeLine)
    (fun empty => by rw [sortedLines, empty]; rfl) fun _ => rfl
  rw [DotReading.ofText, splitOn_render, body, List.map_append, List.map_append,
    List.foldl_append, List.foldl_append, nodes, lines, DotReading.foldl_definitions,
    DotReading.foldl_edges]
  simp [DotReading.readLine]

theorem mem_define {drawing : Drawing} {node other : DotNode} :
    other ∈ (drawing.define node).nodes ↔
      other = node ∨ other ∈ drawing.nodes ∧ other.id ≠ node.id := by
  simp [define]

theorem mem_define_of_unused {drawing : Drawing} {node : DotNode}
    (unused : node.id ∉ drawing.nodes.map DotNode.id) (other : DotNode) :
    other ∈ (drawing.define node).nodes ↔ other = node ∨ other ∈ drawing.nodes := by
  rw [mem_define]
  refine or_congr_right ⟨And.left, fun isNode => ⟨isNode, fun same => unused ?_⟩⟩
  exact List.mem_map.mpr ⟨other, isNode, same⟩

section Connect

variable (drawing : Drawing) {source target node : DotNode}

theorem mem_connect_of_ne (notSource : node.id ≠ source.id) (notTarget : node.id ≠ target.id) :
    node ∈ (drawing.connect source target).nodes ↔ node ∈ drawing.nodes := by
  have neSource : node ≠ source := fun same => notSource (congrArg DotNode.id same)
  have neTarget : node ≠ target := fun same => notTarget (congrArg DotNode.id same)
  change node ∈ ((drawing.define source).define target).nodes ↔ _
  simp [mem_define, notSource, notTarget, neSource, neTarget]

theorem target_mem_connect (source target : DotNode) :
    target ∈ (drawing.connect source target).nodes :=
  mem_define.mpr (.inl rfl)

theorem source_mem_connect (source target : DotNode) :
    source ∈ (drawing.connect source target).nodes ∨
      source.id = target.id ∧ target ∈ (drawing.connect source target).nodes := by
  by_cases same : source.id = target.id
  · exact .inr ⟨same, drawing.target_mem_connect source target⟩
  · exact .inl (mem_define.mpr (.inr ⟨mem_define.mpr (.inl rfl), same⟩))

end Connect

theorem read_render (drawing : Drawing) (name : String) :
    (textReader.definitions name (drawing.render name)).Perm
        (drawing.nodes.map DotNode.definition) ∧
      (textReader.edges name (drawing.render name)).Perm
        (drawing.lines.map (Prod.map DotNode.nameOf DotNode.nameOf)) := by
  simp only [textReader, ofText_render]
  exact ⟨(List.reverse_perm _).trans ((sortBy_perm _ _).map _),
    (List.reverse_perm _).trans ((sortBy_perm _ _).map _)⟩

end Drawing

/-- The library of texts does what is documented. -/
theorem documented_textLibrary : textLibrary.Documented textReader where
  nodes_empty := rfl
  lines_empty := rfl
  distinct := Drawing.distinct
  mem_addNode := Drawing.mem_define_of_unused
  lines_addNode _ := .refl _
  lines_connect _ _ _ := .refl _
  mem_connect := Drawing.mem_connect_of_ne
  source_mem_connect := Drawing.source_mem_connect
  target_mem_connect drawing source target := .inl (drawing.target_mem_connect source target)
  read_marshal drawing name := ⟨_, rfl, drawing.read_render name⟩

end FlowRegions
