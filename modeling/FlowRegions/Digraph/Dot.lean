import FlowRegions.Digraph.Drawing
import FlowRegions.Sorting

/-!
Contract: a library of multigraphs that writes them line by line.

Nodes are written by ascending number, each with its attributes, then lines by
their ends.  Setting a line gives its ends the nodes of the line, the source
first.
-/

namespace FlowRegions

/-! ## Names -/

namespace Dot

def isIdentifierChar (c : Char) : Bool :=
  c.isAlpha || c = '_' || (0x80 ≤ c.toNat && c.toNat ≤ 0xFF)

def isIdentifier (text : String) : Bool :=
  match text.toList with
  | [] => false
  | first :: rest =>
    isIdentifierChar first && rest.all fun c => isIdentifierChar c || c.isDigit

/-- Whether digits with at most one point among them make a number: something
stands before the point, or else behind it. -/
def isUnsignedNumeral (chars : List Char) : Bool :=
  let whole := chars.takeWhile Char.isDigit
  match chars.dropWhile Char.isDigit with
  | [] => !whole.isEmpty
  | '.' :: fraction => fraction.all Char.isDigit && !(whole.isEmpty && fraction.isEmpty)
  | _ => false

def isNumeral (text : String) : Bool :=
  match text.toList with
  | '-' :: rest => isUnsignedNumeral rest
  | chars => isUnsignedNumeral chars

def isMarkup (text : String) : Bool :=
  let chars := text.toList
  2 ≤ chars.length && chars.head? == some '<' && chars.getLast? == some '>'

/-- Words that have a meaning of their own, however they are capitalised. -/
def isKeyword (text : String) : Bool :=
  ["node", "edge", "graph", "digraph", "subgraph", "strict"].contains text.toLower

/-- A name as it is written: as it is where the language allows that, and else
between quotes. -/
def renderName (name : String) : String :=
  let plain := !isKeyword name &&
    (isIdentifier name || isNumeral name || Text.isQuoted name || isMarkup name)
  if plain then name else Text.quote name

end Dot

/-! ## Drawings -/

/-- Nodes with different numbers, and the numbers at both ends of each line. -/
structure Drawing where
  nodes : List DotNode := []
  lines : List (Nat × Nat) := []
  distinct : (nodes.map DotNode.id).Nodup := by decide

namespace Drawing

/-- Puts a node in the place of the one with its number. -/
def define (drawing : Drawing) (node : DotNode) : Drawing where
  nodes := node :: drawing.nodes.filter fun other => other.id != node.id
  lines := drawing.lines
  distinct := by
    rw [List.map_cons, List.nodup_cons]
    refine ⟨fun member => ?_, drawing.distinct.sublist (List.filter_sublist.map _)⟩
    obtain ⟨other, isOther, same⟩ := List.mem_map.mp member
    simp [same] at isOther

def connect (drawing : Drawing) (source target : DotNode) : Drawing :=
  let defined := (drawing.define source).define target
  { defined with lines := (source.id, target.id) :: defined.lines }

/-! ### Text -/

def attributeText (pair : String × String) : String :=
  pair.1 ++ "=" ++ pair.2

/-- The lines of a definition; a single attribute stays on the line of its
node. -/
def nodeLines (node : DotNode) : List String :=
  match node.attributes with
  | [pair] => ["\t" ++ node.name ++ " [" ++ attributeText pair ++ "];"]
  | pairs =>
    ("\t" ++ node.name ++ " [") ::
      (pairs.map (fun pair => "\t\t" ++ attributeText pair) ++ ["\t];"])

def edgeLine (line : Nat × Nat) : String :=
  "\t" ++ DotNode.nameOf line.1 ++ " -> " ++ DotNode.nameOf line.2 ++ ";"

def sortedNodes (drawing : Drawing) : List DotNode :=
  sortBy (fun left right => left.id ≤ right.id) drawing.nodes

def sortedLines (drawing : Drawing) : List (Nat × Nat) :=
  sortBy
    (fun left right => left.1 < right.1 || (left.1 == right.1 && left.2 ≤ right.2))
    drawing.lines

def body (drawing : Drawing) : List String :=
  let nodes :=
    if drawing.nodes.isEmpty then []
    else "\t// Node definitions." :: drawing.sortedNodes.flatMap nodeLines
  let lines :=
    if drawing.lines.isEmpty then []
    else "" :: "\t// Edge definitions." :: drawing.sortedLines.map edgeLine
  nodes ++ lines ++ ["\x7d"]

def opening (name : String) : String :=
  let title := if name.isEmpty then "" else Dot.renderName name ++ " "
  "digraph " ++ title ++ "\x7b\n"

def render (drawing : Drawing) (name : String) : String :=
  opening name ++ "\n".intercalate drawing.body

end Drawing

/-- Multigraphs as drawings, whose text never fails. -/
def textLibrary : DotLibrary where
  Multigraph := Drawing
  Line := DotNode × DotNode
  empty := {}
  addNode := Drawing.define
  newLine _ source target := (source, target)
  setLine drawing line := drawing.connect line.1 line.2
  nodes := Drawing.nodes
  lines := Drawing.lines
  marshal drawing name := .ok (drawing.render name)

namespace Digraph

variable {α : Type}

def dot (graph : Digraph α) (name : String) (label : Nat → String) : String :=
  Drawing.render (graph.drawIn textLibrary label) name

theorem dotWith_textLibrary (graph : Digraph α) (name : String)
    (label? : Option (Nat → String)) :
    graph.dotWith textLibrary name label? = .ok (graph.dot name (label?.getD toString)) :=
  rfl

end Digraph

end FlowRegions
