import FlowRegions.Proofs.Structuring.Table
import FlowRegions.Proofs.Text.Forms

/-!
Contract: the text of a region tells its outline, and nothing else.

The outline of a region is the tree of its parts without their indices: of each node it
keeps the kind, the vertex of a leaf, the place where a jump leads, the condition of a
conditional or a loop, and of a switch the positions of its arms and which of them are
empty.

Owns:
- `Node.traits` and `NodeTable.outline`, with the forms that stand for them in texts;
- `NodeTable.Closed`, the tables in which no region is missing;
- `NodeTable.Closed.render_eq_iff`: regions of such tables have the same text exactly when
  they have the same outline;
- `NodeTable.preorder_outline`: an outline lists the nodes that a walk meets.
-/

namespace FlowRegions

/-! ## Outlines -/

def Kind.showsCond : Kind → Bool
  | ifThen | ifElse | selfLoop | whileLoop | doWhile | forLoop => true
  | leaf | seq | switch | jump | tail => false

/-- What is told of a node besides its parts. -/
structure Traits where
  kind : Kind
  /-- The vertex of a leaf. -/
  vertex : Option Nat
  /-- The vertex where a jump leads. -/
  label : Option Nat
  /-- The condition of a conditional or a loop. -/
  cond : Option Cond
  /-- The positions of each arm of a switch, and whether the arm has a body. -/
  arms : List (List Nat × Bool)
deriving DecidableEq, Repr

namespace Node

def arms (node : Node) : List (Arm Nat) :=
  match node.shape with
  | .switch _ arms => arms
  | _ => []

def target? (node : Node) : Option Nat :=
  match node.shape with
  | .jump target => some target
  | _ => none

def traits (start : Nat → Option Nat) (node : Node) : Traits where
  kind := node.kind
  vertex := node.leafVertex?
  label := node.target?.bind start
  cond := if node.kind.showsCond then node.cond else none
  arms := node.arms.map fun arm => (arm.edges, arm.body.isSome)

end Node

/-- A tree of traits; what is no region is missing. -/
inductive Outline where
  | missing
  | node (traits : Traits) (parts : List Outline)

def Outline.preorder : Outline → List Traits
  | missing => []
  | node traits parts => traits :: parts.flatMap preorder

def NodeTable.outline (table : NodeTable) (start : Nat → Option Nat) : Nat → Nat → Outline
  | 0, _ => .missing
  | fuel + 1, i =>
    match table i with
    | none => .missing
    | some node => .node (node.traits start) (node.children.map (table.outline start fuel))

namespace NodeTable

/-- An outline lists the nodes that a walk meets. -/
theorem preorder_outline (table : NodeTable) (start : Nat → Option Nat) (fuel i : Nat) :
    (table.outline start fuel i).preorder =
      (table.walk (fun _ => true) fuel i).map fun (_, node) => node.traits start := by
  induction fuel generalizing i with
  | zero => simp [outline, walk, Outline.preorder]
  | succ fuel inductionHypothesis =>
      rw [outline, walk]
      cases table i with
      | none => simp [Outline.preorder]
      | some node =>
          simp only [if_true, List.map_cons, Outline.preorder, List.flatMap_map,
            inductionHypothesis, List.map_flatMap]

end NodeTable

/-! ## Conditions as forms -/

namespace Cond

def form : Cond → Form
  | test vertex => .word (.marked 'c' rfl vertex)
  | not operand => .negated operand.form
  | and left right => .group .round [left.form, .word (.spelled "&&" rfl rfl), right.form]
  | or left right => .group .round [left.form, .word (.spelled "||" rfl rfl), right.form]

def formOptional : Option Cond → Form
  | some condition => condition.form
  | none => .word (.spelled "true" rfl rfl)

theorem toList_render (condition : Cond) : condition.render.toList = condition.form.chars := by
  induction condition with
  | test vertex => exact Word.toList_marked rfl rfl vertex
  | not operand inductionHypothesis =>
      rw [render, form, Form.chars, String.toList_append, inductionHypothesis]
      rfl
  | and left right leftHypothesis rightHypothesis
  | or left right leftHypothesis rightHypothesis =>
      simp [render, form, Form.chars, Form.laterChars, leftHypothesis, rightHypothesis,
        Bracket.opening, Bracket.closing, Word.spelled]

theorem toList_renderOptional (condition : Option Cond) :
    (renderOptional condition).toList = (formOptional condition).chars := by
  cases condition with
  | none => rfl
  | some condition => exact toList_render condition

theorem form_injective {condition other : Cond} (same : condition.form = other.form) :
    condition = other := by
  induction condition generalizing other with
  | test vertex =>
      cases other with
      | test vertex' => rw [Word.marked_inj.mp (Form.word.inj same)]
      | _ => cases same
  | not operand inductionHypothesis =>
      cases other with
      | not operand' => rw [inductionHypothesis (Form.negated.inj same)]
      | _ => cases same
  | and left right leftHypothesis rightHypothesis =>
      cases other with
      | and left' right' =>
          simp only [form, Form.group.injEq, List.cons.injEq] at same
          rw [leftHypothesis same.2.1, rightHypothesis same.2.2.2.1]
      | or _ _ => simp [form, Word.spelled] at same
      | _ => cases same
  | or left right leftHypothesis rightHypothesis =>
      cases other with
      | or left' right' =>
          simp only [form, Form.group.injEq, List.cons.injEq] at same
          rw [leftHypothesis same.2.1, rightHypothesis same.2.2.2.1]
      | and _ _ => simp [form, Word.spelled] at same
      | _ => cases same

theorem formOptional_inj {condition other : Option Cond} :
    formOptional condition = formOptional other ↔ condition = other := by
  have shown (condition : Cond) : condition.form ≠ formOptional none := by
    cases condition <;> simp [form, formOptional, Word.marked, Word.spelled]
  refine ⟨fun same => ?_, congrArg formOptional⟩
  cases condition with
  | none =>
      cases other with
      | none => rfl
      | some other => exact absurd same.symm (shown other)
  | some condition =>
      cases other with
      | none => exact absurd same (shown condition)
      | some other => exact congrArg some (form_injective same)

end Cond

/-! ## Regions as forms -/

def Kind.word (kind : Kind) : Word :=
  .spelled kind.keyword (by cases kind <;> rfl) (by cases kind <;> rfl)

theorem Kind.toList_keyword (kind : Kind) : kind.keyword.toList = kind.word.chars :=
  rfl

theorem Kind.word_injective {kind other : Kind} (same : kind.word = other.word) :
    kind = other := by
  have sameText := String.toList_inj.mp (congrArg Word.chars same)
  revert sameText
  cases kind <;> cases other <;> decide

def Form.number (n : Nat) : Form :=
  .word (.number n)

def Form.unknown (i : Nat) : Form :=
  .word (.marked '?' rfl i)

def Arm.form (part : Nat → Form) (arm : Arm Nat) : Form :=
  .group .round (.word (.spelled "case" rfl rfl) ::
    .group .square (arm.edges.map .number) :: (arm.body.map part).toList)

namespace Node

/-- The items that follow the keyword of a node in its form, given those of regions and
the vertices where regions start. -/
def items (start : Nat → Option Nat) (part : Nat → Form) (node : Node) : List Form :=
  match node.shape with
  | .jump target => (start target).toList.map .number
  | .switch head arms => part head :: arms.map (Arm.form part)
  | _ =>
    (if node.kind.showsCond then [Cond.formOptional node.cond] else []) ++
      node.children.map part

def form (start : Nat → Option Nat) (part : Nat → Form) (node : Node) : Form :=
  match node.leafVertex? with
  | some vertex => .number vertex
  | none => .group .round (.word node.kind.word :: node.items start part)

end Node

def NodeTable.form (table : NodeTable) (start : Nat → Option Nat) : Nat → Nat → Form
  | 0, i => .unknown i
  | fuel + 1, i =>
    match table i with
    | none => .unknown i
    | some node => node.form start (table.form start fuel)

/-! ## What forms tell -/

/-- Lists that are mapped alike by two functions are mapped alike by two others. -/
theorem map_eq_map_iff {α β γ δ : Type} {xs : List α} {ys : List β} {f : α → γ} {g : β → γ}
    {f' : α → δ} {g' : β → δ} (same : ∀ x ∈ xs, ∀ y ∈ ys, f x = g y ↔ f' x = g' y) :
    xs.map f = ys.map g ↔ xs.map f' = ys.map g' := by
  induction xs generalizing ys with
  | nil => simp
  | cons x xs inductionHypothesis =>
      cases ys with
      | nil => simp
      | cons y ys =>
          simp only [List.map_cons, List.cons.injEq]
          rw [same x List.mem_cons_self y List.mem_cons_self, inductionHypothesis]
          exact fun x isLeft y isRight =>
            same x (List.mem_cons_of_mem _ isLeft) y (List.mem_cons_of_mem _ isRight)

theorem Form.number_inj {m n : Nat} : number m = number n ↔ m = n := by
  rw [number, number, Form.word.injEq, Word.number_inj]

/-- Arms have the same forms when they have the same positions and the same bodies have the
same forms. -/
theorem Arm.map_form_eq_iff {part part' : Nat → Form} {arms others : List (Arm Nat)} :
    arms.map (Arm.form part) = others.map (Arm.form part') ↔
      arms.map (fun arm => (arm.edges, arm.body.isSome)) =
          others.map (fun arm => (arm.edges, arm.body.isSome)) ∧
        (arms.filterMap Arm.body).map part = (others.filterMap Arm.body).map part' := by
  induction arms generalizing others with
  | nil => cases others <;> simp
  | cons arm arms inductionHypothesis =>
      cases others with
      | nil => simp
      | cons other others =>
          obtain ⟨edges, body⟩ := arm
          obtain ⟨edges', body'⟩ := other
          simp only [List.map_cons, List.cons.injEq, inductionHypothesis]
          have sameEdges : edges.map Form.number = edges'.map Form.number ↔ edges = edges' :=
            List.map_inj_right fun _ _ => Form.number_inj.mp
          cases body <;> cases body' <;> simp [Arm.form, sameEdges]
          all_goals tauto

namespace Node

variable {start start' : Nat → Option Nat} {part part' : Nat → Form} {node other : Node}

/-- The kind of a node can be told from its form. -/
theorem kind_eq_of_form_eq (same : node.form start part = other.form start' part') :
    node.kind = other.kind := by
  have isLeaf {node : Node} {vertex : Nat} (found : node.leafVertex? = some vertex) :
      node.kind = .leaf := by
    obtain ⟨cond, rfl⟩ := exists_leaf_of_leafVertex? found
    rfl
  rw [form, form] at same
  cases vertex : node.leafVertex? with
  | some v =>
      cases vertex' : other.leafVertex? with
      | some v' => rw [isLeaf vertex, isLeaf vertex']
      | none =>
          rw [vertex, vertex'] at same
          cases same
  | none =>
      cases vertex' : other.leafVertex? with
      | some v' =>
          rw [vertex, vertex'] at same
          cases same
      | none =>
          simp only [vertex, vertex', Form.group.injEq, List.cons.injEq] at same
          exact Kind.word_injective (Form.word.inj same.2.1)

/-- A node that shows its condition and its parts and nothing else. -/
def IsPlain (node : Node) : Prop :=
  node.kind ≠ .leaf ∧ node.kind ≠ .jump ∧ node.kind ≠ .switch

theorem IsPlain.form_eq (plain : node.IsPlain) : node.form start part =
    .group .round (.word node.kind.word ::
      ((if node.kind.showsCond then [Cond.formOptional node.cond] else []) ++
        node.children.map part)) := by
  obtain ⟨shape, cond⟩ := node
  cases shape with
  | leaf => exact absurd rfl plain.1
  | jump => exact absurd rfl plain.2.1
  | switch => exact absurd rfl plain.2.2
  | _ => rfl

theorem IsPlain.traits_eq (plain : node.IsPlain) : node.traits start =
    ⟨node.kind, none, none, if node.kind.showsCond then node.cond else none, []⟩ := by
  obtain ⟨shape, cond⟩ := node
  cases shape with
  | leaf => exact absurd rfl plain.1
  | jump => exact absurd rfl plain.2.1
  | switch => exact absurd rfl plain.2.2
  | _ => rfl

theorem IsPlain.form_eq_iff (plain : node.IsPlain) (sameKind : node.kind = other.kind) :
    node.form start part = other.form start' part' ↔
      node.traits start = other.traits start' ∧
        node.children.map part = other.children.map part' := by
  have plain' : other.IsPlain := by
    rw [IsPlain, ← sameKind]
    exact plain
  rw [plain.form_eq, plain'.form_eq, plain.traits_eq, plain'.traits_eq, sameKind]
  cases other.kind.showsCond <;> simp [Cond.formOptional_inj]

/-- Nodes have the same form when they have the same traits and their parts have the same
forms. -/
theorem form_eq_iff (labelled : node.kind = .jump → ∃ v, (node.traits start).label = some v)
    (labelled' : other.kind = .jump → ∃ v, (other.traits start').label = some v) :
    node.form start part = other.form start' part' ↔
      node.traits start = other.traits start' ∧
        node.children.map part = other.children.map part' := by
  by_cases sameKind : node.kind = other.kind
  swap
  · exact iff_of_false (fun same => sameKind (kind_eq_of_form_eq same))
      fun both => sameKind (congrArg Traits.kind both.1)
  obtain ⟨shape, cond⟩ := node
  obtain ⟨shape', cond'⟩ := other
  cases shape with
  | leaf vertex =>
      cases shape' with
      | leaf vertex' =>
          change Form.number vertex = Form.number vertex' ↔
            Traits.mk .leaf (some vertex) none none [] =
              Traits.mk .leaf (some vertex') none none [] ∧ ([] : List Form) = []
          simp [Form.number_inj]
      | _ => cases sameKind
  | jump target =>
      cases shape' with
      | jump target' =>
          obtain ⟨v, isStart⟩ := labelled rfl
          obtain ⟨v', isStart'⟩ := labelled' rfl
          change start target = some v at isStart
          change start' target' = some v' at isStart'
          change Form.group .round (.word (Kind.word .jump) :: (start target).toList.map .number) =
              .group .round (.word (Kind.word .jump) :: (start' target').toList.map .number) ↔
            Traits.mk .jump none (start target) none [] =
              Traits.mk .jump none (start' target') none [] ∧ ([] : List Form) = []
          rw [isStart, isStart']
          simp [Form.number_inj]
      | _ => cases sameKind
  | switch head arms =>
      cases shape' with
      | switch head' arms' =>
          change Form.group .round
                (.word (Kind.word .switch) :: part head :: arms.map (Arm.form part)) =
              .group .round
                (.word (Kind.word .switch) :: part' head' :: arms'.map (Arm.form part')) ↔
            Traits.mk .switch none none none (arms.map _) =
              Traits.mk .switch none none none (arms'.map _) ∧
                part head :: (arms.filterMap Arm.body).map part =
                  part' head' :: (arms'.filterMap Arm.body).map part'
          simp only [Form.group.injEq, List.cons.injEq, true_and, Arm.map_form_eq_iff,
            Traits.mk.injEq]
          tauto
      | _ => cases sameKind
  | _ => exact IsPlain.form_eq_iff ⟨nofun, nofun, nofun⟩ sameKind

end Node

/-! ## Texts of forms -/

theorem toList_bracketed {keyword : String} {word : Word} {items : List String}
    {forms : List Form} (isKeyword : keyword.toList = word.chars)
    (same : items.map String.toList = forms.map Form.chars) :
    (NodeTable.bracketed keyword items).toList =
      (Form.group .round (.word word :: forms)).chars := by
  refine Form.toList_joined rfl rfl ?_
  rw [List.map_cons, List.map_cons, isKeyword, same, Form.chars]

theorem toList_renderEdges (edges : List Nat) :
    (NodeTable.renderEdges edges).toList = (Form.group .square (edges.map .number)).chars := by
  refine Form.toList_joined rfl rfl ?_
  rw [List.map_map, List.map_map]
  exact List.map_congr_left fun e _ => Word.toList_toString e

theorem Arm.toList_case {text : Nat → String} {part : Nat → Form} {arm : Arm Nat}
    (same : ∀ r ∈ arm.body, (text r).toList = (part r).chars) :
    (NodeTable.bracketed "case" (NodeTable.renderEdges arm.edges ::
      (arm.body.map text).toList)).toList = (arm.form part).chars := by
  refine toList_bracketed rfl ?_
  rw [List.map_cons, List.map_cons, toList_renderEdges]
  cases isBody : arm.body with
  | none => rfl
  | some r => simp [same r isBody]

theorem toList_goto (vertex : Nat) : s!"(goto {vertex})".toList =
    (Form.group .round [.word (Kind.word .jump), .number vertex]).chars := by
  change ("(goto " ++ toString vertex ++ ")").toList = _
  rw [String.toList_append, String.toList_append, Word.toList_toString]
  simp [Form.chars, Form.laterChars, Form.number, Kind.word, Word.spelled, Kind.keyword,
    Bracket.opening, Bracket.closing]

namespace NodeTable

variable {table : NodeTable} {start : Nat → Option Nat}

structure Closed (table : NodeTable) (start : Nat → Option Nat) : Prop where
  nested : table.Nested
  present : ∀ {i node}, table i = some node → ∀ r ∈ node.references, (table r).isSome = true
  starts : ∀ {fuel i}, (table i).isSome = true → i < fuel → table.firstVertex? fuel i = start i

namespace Closed

variable (closed : table.Closed start)
include closed

/-- Every region starts somewhere: the way down from it ends at a leaf. -/
theorem isSome_start {i : Nat} (isRegion : (table i).isSome = true) :
    (start i).isSome = true := by
  induction i using Nat.strongRecOn with
  | ind i inductionHypothesis =>
      rw [← closed.starts isRegion (Nat.lt_succ_self i), firstVertex?_succ]
      obtain ⟨node, found⟩ := Option.isSome_iff_exists.mp isRegion
      have below {r : Nat} (refers : r ∈ node.references) :
          (table.firstVertex? i r).isSome = true := by
        have earlier := closed.nested.below found r refers
        have there := closed.present found r refers
        rw [closed.starts there earlier]
        exact inductionHypothesis r earlier there
      rw [found]
      obtain ⟨shape, cond⟩ := node
      cases shape with
      | leaf vertex => rfl
      | seq nodes =>
          cases nodes with
          | nil => exact absurd rfl (closed.nested.parts found)
          | cons first rest => exact below List.mem_cons_self
      | _ => exact below List.mem_cons_self

theorem exists_label {i : Nat} {node : Node} (found : table i = some node)
    (isJump : node.kind = .jump) : ∃ vertex, (node.traits start).label = some vertex := by
  obtain ⟨shape, cond⟩ := node
  cases shape with
  | jump target =>
      exact Option.isSome_iff_exists.mp
        (closed.isSome_start (closed.present found target List.mem_cons_self))
  | _ => cases isJump

/-- The text of a region is that of its form. -/
theorem toList_render {fuel i : Nat} (enough : i < fuel) :
    (table.render fuel i).toList = (table.form start fuel i).chars := by
  induction fuel generalizing i with
  | zero => cases enough
  | succ fuel inductionHypothesis =>
      rw [render, form]
      cases found : table i with
      | none => exact Word.toList_marked rfl rfl i
      | some node =>
          have within {r : Nat} (refers : r ∈ node.references) : r < fuel := by
            have := closed.nested.below found r refers
            omega
          have parts : (node.children.map (table.render fuel)).map String.toList =
              (node.children.map (table.form start fuel)).map Form.chars := by
            simp only [List.map_map]
            refine List.map_congr_left fun r isChild => ?_
            exact inductionHypothesis (within (Node.mem_references_of_mem_children isChild))
          obtain ⟨shape, cond⟩ := node
          cases shape with
          | leaf vertex => exact Word.toList_toString vertex
          | jump target =>
              have refers : target ∈ Node.references ⟨.jump target, cond⟩ := List.mem_cons_self
              have label := closed.starts (closed.present found target refers) (within refers)
              obtain ⟨vertex, isStart⟩ := closed.exists_label found rfl
              change start target = some vertex at isStart
              simp only [label, Node.form, Node.leafVertex?, Node.items, isStart, Option.getD_some]
              exact toList_goto vertex
          | switch head arms =>
              refine toList_bracketed (Kind.toList_keyword .switch) (congrArg₂ List.cons ?_ ?_)
              · exact inductionHypothesis (within List.mem_cons_self)
              · rw [List.map_map, List.map_map]
                refine List.map_congr_left fun arm isArm => Arm.toList_case fun r isBody => ?_
                refine inductionHypothesis (within (List.mem_cons_of_mem _ ?_))
                exact List.mem_filterMap.mpr ⟨arm, isArm, isBody⟩
          | seq nodes | tail body => exact toList_bracketed rfl parts
          | ifThen _ _ | ifElse _ _ _ | selfLoop _ | whileLoop _ _ | doWhile _ _
          | forLoop _ _ _ _ =>
              refine toList_bracketed rfl ?_
              simp only [List.map_cons, parts, Cond.toList_renderOptional]
              rfl

/-- Regions have the same form when they have the same outline. -/
theorem form_eq_iff {other : NodeTable} {start' : Nat → Option Nat}
    (closed' : other.Closed start') {fuel fuel' i j : Nat} (isRegion : (table i).isSome = true)
    (isRegion' : (other j).isSome = true) (enough : i < fuel) (enough' : j < fuel') :
    table.form start fuel i = other.form start' fuel' j ↔
      table.outline start fuel i = other.outline start' fuel' j := by
  induction fuel generalizing i j fuel' with
  | zero => cases enough
  | succ fuel inductionHypothesis =>
      obtain ⟨fuel', rfl⟩ : ∃ less, fuel' = less + 1 := ⟨fuel' - 1, by omega⟩
      obtain ⟨node, found⟩ := Option.isSome_iff_exists.mp isRegion
      obtain ⟨node', found'⟩ := Option.isSome_iff_exists.mp isRegion'
      have parts : node.children.map (table.form start fuel) =
            node'.children.map (other.form start' fuel') ↔
          node.children.map (table.outline start fuel) =
            node'.children.map (other.outline start' fuel') := by
        refine map_eq_map_iff fun r isChild r' isChild' => ?_
        have refers := Node.mem_references_of_mem_children isChild
        have refers' := Node.mem_references_of_mem_children isChild'
        have earlier := closed.nested.below found r refers
        have earlier' := closed'.nested.below found' r' refers'
        exact inductionHypothesis (closed.present found r refers)
          (closed'.present found' r' refers') (by omega) (by omega)
      simp only [form, outline, found, found']
      rw [Node.form_eq_iff (closed.exists_label found) (closed'.exists_label found'), parts,
        Outline.node.injEq]

/-- Regions have the same text when they have the same outline. -/
theorem render_eq_iff {other : NodeTable} {start' : Nat → Option Nat}
    (closed' : other.Closed start') {fuel fuel' i j : Nat} (isRegion : (table i).isSome = true)
    (isRegion' : (other j).isSome = true) (enough : i < fuel) (enough' : j < fuel') :
    table.render fuel i = other.render fuel' j ↔
      table.outline start fuel i = other.outline start' fuel' j := by
  rw [← closed.form_eq_iff closed' isRegion isRegion' enough enough', ← String.toList_inj,
    closed.toList_render enough, closed'.toList_render enough']
  exact ⟨Form.chars_injective, congrArg Form.chars⟩

end Closed

end NodeTable

end FlowRegions
