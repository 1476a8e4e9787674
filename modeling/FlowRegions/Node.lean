import FlowRegions.Cond

/-!
Contract: control nodes, the vocabulary of structured control flow.

A node names its parts by region.  `Shape` says what a node is made of and is
generic in how regions are named; `Node` is a shape over region indices
together with the condition it tests.

- `leaf v` runs the block of vertex `v`;
- `seq rs` runs regions in order;
- `ifThen h t` runs `h`, then `t` when the condition holds;
- `ifElse h t e` runs `h`, then `t` when the condition holds and `e` otherwise;
- `switch h arms` runs `h`, then the arm its branch selects;
- `selfLoop b` repeats `b` while the condition holds;
- `whileLoop h b` runs `h`, then `b` and again from `h`, while the condition
  holds;
- `doWhile b l` runs `b` and `l`, again from `b` while the condition holds;
- `forLoop i h b s` runs `i` once, then `h`, then `b`, `s` and again from `h`,
  while the condition holds;
- `jump t` continues at the start of region `t`;
- `tail b` is a copy of region `b`.

An absent condition always holds.  A leaf or a sequence carries a condition
when blocks that only test something were folded into the branch it ends in;
the condition then replaces that branch.
-/

namespace FlowRegions

/-! ## Kinds -/

inductive Kind where
  | leaf
  | seq
  | ifThen
  | ifElse
  | switch
  | selfLoop
  | whileLoop
  | doWhile
  | forLoop
  | jump
  | tail
deriving DecidableEq, Repr

namespace Kind

def name : Kind → String
  | leaf => "Leaf"
  | seq => "Seq"
  | ifThen => "If"
  | ifElse => "IfElse"
  | switch => "Switch"
  | selfLoop => "SelfLoop"
  | whileLoop => "While"
  | doWhile => "DoWhile"
  | forLoop => "For"
  | jump => "Goto"
  | tail => "Tail"

/-- The word that opens the text of a node of a kind. -/
def keyword : Kind → String
  | leaf => "leaf"
  | seq => "seq"
  | ifThen => "if"
  | ifElse => "ifelse"
  | switch => "switch"
  | selfLoop => "selfloop"
  | whileLoop => "while"
  | doWhile => "dowhile"
  | forLoop => "for"
  | jump => "goto"
  | tail => "tail"

/-- The kind with a number, counted from 1. -/
def ofCode? : Nat → Option Kind
  | 1 => some leaf
  | 2 => some seq
  | 3 => some ifThen
  | 4 => some ifElse
  | 5 => some switch
  | 6 => some selfLoop
  | 7 => some whileLoop
  | 8 => some doWhile
  | 9 => some forLoop
  | 10 => some jump
  | 11 => some tail
  | _ => none

/-- The name that goes with a number: 0 stands for no kind at all, and what is
no kind is unknown. -/
def nameOfCode (code : Nat) : String :=
  if code = 0 then "None"
  else match ofCode? code with
    | some kind => kind.name
    | none => "Unknown"

end Kind

/-! ## Shapes -/

/-- One arm of a switch: the positions of the branch that select it, and its
region unless it is empty and goes straight to what follows the switch. -/
structure Arm (ρ : Type) where
  edges : List Nat
  body : Option ρ
deriving DecidableEq, Repr

/-- What a control node is made of, with regions named by `ρ`. -/
inductive Shape (ρ : Type) where
  | leaf (vertex : ρ)
  | seq (nodes : List ρ)
  | ifThen (head thenArm : ρ)
  | ifElse (head thenArm elseArm : ρ)
  | switch (head : ρ) (arms : List (Arm ρ))
  | selfLoop (body : ρ)
  | whileLoop (head body : ρ)
  | doWhile (body latch : ρ)
  | forLoop (init head body step : ρ)
  | jump (target : ρ)
  | tail (body : ρ)
deriving DecidableEq, Repr

namespace Shape

variable {ρ : Type}

def kind : Shape ρ → Kind
  | leaf _ => .leaf
  | seq _ => .seq
  | ifThen _ _ => .ifThen
  | ifElse _ _ _ => .ifElse
  | switch _ _ => .switch
  | selfLoop _ => .selfLoop
  | whileLoop _ _ => .whileLoop
  | doWhile _ _ => .doWhile
  | forLoop _ _ _ _ => .forLoop
  | jump _ => .jump
  | tail _ => .tail

/-- The regions directly nested in a shape, in execution order.  The target of
a jump is not nested in it. -/
def children : Shape ρ → List ρ
  | leaf _ => []
  | seq nodes => nodes
  | ifThen head thenArm => [head, thenArm]
  | ifElse head thenArm elseArm => [head, thenArm, elseArm]
  | switch head arms => head :: arms.filterMap Arm.body
  | selfLoop body => [body]
  | whileLoop head body => [head, body]
  | doWhile body latch => [body, latch]
  | forLoop init head body step => [init, head, body, step]
  | jump _ => []
  | tail body => [body]

end Shape

/-- Every part a shape may have, filled in whether its kind uses it or not. -/
structure Parts (ρ : Type) where
  vertex : ρ
  nodes : List ρ
  head : ρ
  thenArm : ρ
  elseArm : ρ
  body : ρ
  latch : ρ
  init : ρ
  step : ρ
  target : ρ
  arms : List (Arm ρ)
deriving DecidableEq, Repr

def Parts.shape {ρ : Type} (parts : Parts ρ) : Kind → Shape ρ
  | .leaf => .leaf parts.vertex
  | .seq => .seq parts.nodes
  | .ifThen => .ifThen parts.head parts.thenArm
  | .ifElse => .ifElse parts.head parts.thenArm parts.elseArm
  | .switch => .switch parts.head parts.arms
  | .selfLoop => .selfLoop parts.body
  | .whileLoop => .whileLoop parts.head parts.body
  | .doWhile => .doWhile parts.body parts.latch
  | .forLoop => .forLoop parts.init parts.head parts.body parts.step
  | .jump => .jump parts.target
  | .tail => .tail parts.body

theorem Parts.kind_shape {ρ : Type} (parts : Parts ρ) (kind : Kind) :
    (parts.shape kind).kind = kind := by
  cases kind <;> rfl

/-! ## Nodes -/

/-- A control node of a table of regions: a shape over region indices and the
condition it tests. -/
structure Node where
  shape : Shape Nat
  cond : Option Cond := none
deriving DecidableEq, Repr

namespace Node

def kind (node : Node) : Kind :=
  node.shape.kind

def children (node : Node) : List Nat :=
  node.shape.children

def isJump (node : Node) : Bool :=
  node.kind == .jump

def leafVertex? (node : Node) : Option Nat :=
  match node.shape with
  | .leaf vertex => some vertex
  | _ => none

theorem exists_leaf_of_leafVertex? {node : Node} {vertex : Nat}
    (isLeaf : node.leafVertex? = some vertex) : ∃ cond, node = ⟨.leaf vertex, cond⟩ := by
  obtain ⟨shape, cond⟩ := node
  cases shape with
  | leaf u =>
      cases isLeaf
      exact ⟨cond, rfl⟩
  | _ => cases isLeaf

end Node

end FlowRegions
