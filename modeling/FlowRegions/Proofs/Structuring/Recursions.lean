import FlowRegions.Proofs.Structuring.Contents
import FlowRegions.Proofs.Tree.Outline

/-!
Contract: tables of regions that rest on earlier regions and on vertices, and the walks down
such tables.

The walks down a table are bounded by fuel.  Without the bound each of them is a recursion
along references, and nothing but the table keeps it from going round.  When every region
refers to earlier ones, such a recursion has one solution, and a bounded walk finds it at a
region as soon as its fuel exceeds the index.

Owns:
- `NodeTable.Founded`: references are earlier regions, sequences have parts, no region opens
  with a jump, and leaves are vertices;
- `NodeTable.Settles`: a recursion has one solution, which a bounded walk finds;
- `NodeTable.Walkable`: the recursion of each walk settles;
- that in a founded table each region starts at a vertex, and no text names a region that is
  missing.
-/

namespace FlowRegions

/-! ## Founded tables -/

namespace NodeTable

def Refers (table : NodeTable) (r i : Nat) : Prop :=
  ∃ node, table i = some node ∧ r ∈ node.references

/-- A table whose regions rest on earlier regions, and in the end on vertices. -/
structure Founded (table : NodeTable) (isVertex : Nat → Prop) : Prop where
  /-- Every region refers to regions before it, and a sequence has parts. -/
  nested : table.Nested
  /-- What is referred to is a region. -/
  present : ∀ {i node}, table i = some node → ∀ r ∈ node.references, (table r).isSome = true
  /-- No region opens with a jump. -/
  opening : ∀ {i node first}, table i = some node → node.children.head? = some first →
    (table first).map Node.kind ≠ some .jump
  /-- Leaves are vertices. -/
  vertices : ∀ {i w cond}, table i = some ⟨.leaf w, cond⟩ → isVertex w

theorem Nested.wellFounded_refers {table : NodeTable} (nested : table.Nested) :
    WellFounded table.Refers :=
  Subrelation.wf (fun ⟨_, found, refers⟩ => nested.below found _ refers) Nat.lt_wfRel.wf

/-! ## Recursions down a table -/

/-- A recursion down a table: what it gives at a region, by the node of the region and what
it gives at the regions referred to. -/
structure Recursion (β : Type) where
  at? : Nat → Option Node → (Nat → β) → β
  /-- What is given without a node. -/
  absent : ∀ i f g, at? i none f = at? i none g
  /-- What is given at a node depends on the regions it refers to. -/
  confined : ∀ {i node f g}, (∀ r ∈ node.references, f r = g r) →
    at? i (some node) f = at? i (some node) g

/-- The recursion by a level, which does not see the index. -/
def Level.recursion {β : Type} (level : Level β) : Recursion β where
  at? _ := level.at?
  absent _ := level.absent
  confined := level.confined

variable {β : Type}

def Solves (table : NodeTable) (recursion : Recursion β) (f : Nat → β) : Prop :=
  ∀ i, f i = recursion.at? i (table i) f

/-- A recursion has one solution, and a bounded walk finds it at a region as soon as its fuel
exceeds the index. -/
def Settles (table : NodeTable) (recursion : Recursion β) (walk : Nat → Nat → β) : Prop :=
  ∃ f, table.Solves recursion f ∧ (∀ g, table.Solves recursion g → g = f) ∧
    ∀ fuel i, i < fuel → walk fuel i = f i

/-- A bounded walk goes by a recursion wherever its fuel is enough. -/
def Follows (table : NodeTable) (recursion : Recursion β) (walk : Nat → Nat → β) : Prop :=
  ∀ fuel i, i ≤ fuel → walk (fuel + 1) i = recursion.at? i (table i) (walk fuel)

namespace Nested

variable {table : NodeTable} (nested : table.Nested) {recursion : Recursion β}
  {walk other : Nat → Nat → β}
include nested

/-- Walks by one recursion agree, whatever their fuel above the index. -/
theorem follows_congr (follows : table.Follows recursion walk)
    (follows' : table.Follows recursion other) {i fuel fuel' : Nat} (enough : i < fuel)
    (enough' : i < fuel') : walk fuel i = other fuel' i := by
  induction i using Nat.strongRecOn generalizing fuel fuel' with
  | ind i inductionHypothesis =>
      obtain ⟨fuel, rfl⟩ : ∃ less, fuel = less + 1 := ⟨fuel - 1, by omega⟩
      obtain ⟨fuel', rfl⟩ : ∃ less, fuel' = less + 1 := ⟨fuel' - 1, by omega⟩
      rw [follows _ i (Nat.le_of_lt_succ enough), follows' _ i (Nat.le_of_lt_succ enough')]
      cases found : table i with
      | none => exact recursion.absent i _ _
      | some node =>
          refine recursion.confined fun r refers => ?_
          have earlier := nested.below found r refers
          exact inductionHypothesis r earlier (by omega) (by omega)

/-- The recursion of a bounded walk settles. -/
theorem settles (follows : table.Follows recursion walk) : table.Settles recursion walk := by
  refine ⟨fun i => walk (i + 1) i, fun i => ?_, fun g solves => funext fun i => ?_,
    fun fuel i enough => nested.follows_congr follows follows enough (Nat.lt_succ_self i)⟩
  · dsimp only
    rw [follows i i (Nat.le_refl i)]
    cases found : table i with
    | none => exact recursion.absent i _ _
    | some node =>
        refine recursion.confined fun r refers => ?_
        exact nested.follows_congr follows follows (nested.below found r refers)
          (Nat.lt_succ_self r)
  · -- A solution is a walk that needs no fuel.
    have unbounded : table.Follows recursion fun _ => g := fun _ i _ => solves i
    exact nested.follows_congr unbounded follows (Nat.lt_succ_self i) (Nat.lt_succ_self i)

end Nested

/-! ## The recursions of the walks -/

def listing (enter : Node → Bool) : Recursion (List (Nat × Node)) where
  at? i node? below :=
    match node? with
    | none => []
    | some node => (i, node) :: if enter node then node.children.flatMap below else []
  absent _ _ _ := rfl
  confined := by
    intro i node f g same
    have below : node.children.flatMap f = node.children.flatMap g :=
      List.flatMap_congr fun r isChild => same r (Node.mem_references_of_mem_children isChild)
    dsimp only
    rw [below]

def gathering : Recursion (List Nat) :=
  (gatherLevel (fun _ => true) Node.leafVertices).recursion

def caseText (text : Nat → String) (arm : Arm Nat) : String :=
  bracketed "case" (renderEdges arm.edges :: (arm.body.map text).toList)

theorem caseText_congr {f g : Nat → String} {arm : Arm Nat} (same : ∀ r ∈ arm.body, f r = g r) :
    caseText f arm = caseText g arm := by
  rw [caseText, caseText, Option.map_congr same]

def writing (start : Nat → Option Nat) : Recursion String where
  at? i node? text :=
    match node? with
    | none => s!"?{i}"
    | some node =>
      match node.shape with
      | .leaf vertex => toString vertex
      | .jump target =>
        let place := (start target).getD unresolved
        s!"(goto {place})"
      | .switch head arms => bracketed "switch" (text head :: arms.map (caseText text))
      | _ =>
        bracketed node.kind.keyword
          ((if node.kind.showsCond then [Cond.renderOptional node.cond] else []) ++
            node.children.map text)
  absent _ _ _ := rfl
  confined := by
    intro i node f g same
    have parts : node.children.map f = node.children.map g :=
      List.map_congr_left fun r isChild => same r (Node.mem_references_of_mem_children isChild)
    obtain ⟨shape, cond⟩ := node
    cases shape with
    | leaf vertex | jump target => rfl
    | switch head arms =>
        have arms : arms.map (caseText f) = arms.map (caseText g) := by
          refine List.map_congr_left fun arm isArm => caseText_congr fun r isBody => same r ?_
          exact List.mem_cons_of_mem _ (List.mem_filterMap.mpr ⟨arm, isArm, isBody⟩)
        dsimp only
        rw [arms, same head List.mem_cons_self]
    | _ =>
        dsimp only
        rw [parts]

/-- The recursion of each walk down a table settles, so none of them goes round or is cut
short; that of texts does with the vertices where regions start. -/
structure Walkable (table : NodeTable) : Prop where
  walk : ∀ enter, table.Settles (listing enter) (table.walk enter)
  leaves : table.Settles gathering table.leaves
  firstVertex : table.Settles firstLevel.recursion table.firstVertex?
  branchingVertex : table.Settles branchingLevel.recursion table.branchingVertex?
  branchCond : table.Settles condLevel.recursion table.branchCond?
  render : ∀ start, table.Solves firstLevel.recursion start →
    table.Settles (writing start) table.render

section Follows

variable (table : NodeTable)

theorem follows_walk (enter : Node → Bool) :
    table.Follows (listing enter) (table.walk enter) := by
  intro fuel i _
  rw [walk]
  cases table i <;> rfl

theorem follows_leaves : table.Follows gathering table.leaves := by
  intro fuel i _
  rw [funext (leaves_eq_gather table fuel), leaves_eq_gather]
  exact gather_succ _ _ table fuel i

theorem follows_firstVertex? : table.Follows firstLevel.recursion table.firstVertex? :=
  fun fuel i _ => table.firstVertex?_succ fuel i

theorem follows_branchingVertex? :
    table.Follows branchingLevel.recursion table.branchingVertex? :=
  fun fuel i _ => table.branchingVertex?_succ fuel i

theorem follows_branchCond? : table.Follows condLevel.recursion table.branchCond? :=
  fun fuel i _ => table.branchCond?_succ fuel i

variable {table}

/-- Jumps ask for the vertex where an earlier region starts, so the fuel that is left is
enough to find it. -/
theorem Nested.follows_render (nested : table.Nested) {start : Nat → Option Nat}
    (starts : ∀ fuel i, i < fuel → table.firstVertex? fuel i = start i) :
    table.Follows (writing start) table.render := by
  intro fuel i enough
  rw [render]
  cases found : table i with
  | none => rfl
  | some node =>
      obtain ⟨shape, cond⟩ := node
      cases shape with
      | jump target =>
          have earlier := nested.below found target List.mem_cons_self
          have label := starts fuel target (by omega)
          simp only [writing, label]
      | _ => rfl

end Follows

theorem Nested.walkable {table : NodeTable} (nested : table.Nested) : table.Walkable where
  walk enter := nested.settles (table.follows_walk enter)
  leaves := nested.settles table.follows_leaves
  firstVertex := nested.settles table.follows_firstVertex?
  branchingVertex := nested.settles table.follows_branchingVertex?
  branchCond := nested.settles table.follows_branchCond?
  render start solves := by
    obtain ⟨f, _, unique, finds⟩ := nested.settles table.follows_firstVertex?
    rw [unique start solves]
    exact nested.settles (nested.follows_render finds)

end NodeTable

/-! ## Texts without question marks -/

theorem Word.question_notMem_number (n : Nat) : '?' ∉ (Word.number n).chars := by
  intro member
  have isDigit := Nat.isDigit_of_mem_toDigits (by decide) (by decide) member
  cases isDigit

theorem Kind.question_notMem_word (kind : Kind) : '?' ∉ kind.word.chars := by
  cases kind <;> decide

theorem Cond.question_notMem_form (condition : Cond) : '?' ∉ condition.form.chars := by
  intro member
  induction condition with
  | test vertex =>
      rcases List.mem_cons.mp member with isMark | isDigit
      · cases isMark
      · exact Word.question_notMem_number vertex isDigit
  | not operand inductionHypothesis =>
      rw [form, Form.chars] at member
      rcases List.mem_cons.mp member with isSign | within
      · cases isSign
      · exact inductionHypothesis within
  | and left right leftHypothesis rightHypothesis
  | or left right leftHypothesis rightHypothesis =>
      obtain ⟨item, isItem, holds⟩ := Form.exists_item_of_mem_chars rfl member
      simp only [List.mem_cons, List.not_mem_nil, or_false] at isItem
      rcases isItem with rfl | rfl | rfl
      · exact leftHypothesis holds
      · revert holds
        decide
      · exact rightHypothesis holds

theorem Cond.question_notMem_formOptional (condition : Option Cond) :
    '?' ∉ (formOptional condition).chars := by
  cases condition with
  | none => decide
  | some condition => exact condition.question_notMem_form

section Texts

variable {start : Nat → Option Nat} {part : Nat → Form}

theorem Arm.question_notMem_form {arm : Arm Nat} (parts : ∀ r ∈ arm.body, '?' ∉ (part r).chars) :
    '?' ∉ (arm.form part).chars := by
  intro member
  obtain ⟨item, isItem, holds⟩ := Form.exists_item_of_mem_chars rfl member
  simp only [List.mem_cons, Option.mem_toList, Option.map_eq_some_iff] at isItem
  rcases isItem with rfl | rfl | ⟨r, isBody, rfl⟩
  · revert holds
    decide
  · obtain ⟨edge, isEdge, holds⟩ := Form.exists_item_of_mem_chars rfl holds
    obtain ⟨n, _, rfl⟩ := List.mem_map.mp isEdge
    exact Word.question_notMem_number n holds
  · exact parts r isBody holds

/-- The text of a node has no question mark when those of its parts have none. -/
theorem Node.question_notMem_form {node : Node}
    (parts : ∀ r ∈ node.children, '?' ∉ (part r).chars) :
    '?' ∉ (node.form start part).chars := by
  intro member
  rw [form] at member
  split at member
  · exact Word.question_notMem_number _ member
  obtain ⟨item, isItem, holds⟩ := Form.exists_item_of_mem_chars rfl member
  rcases List.mem_cons.mp isItem with rfl | isItem
  · exact node.kind.question_notMem_word holds
  unfold items at isItem
  split at isItem
  · obtain ⟨n, _, rfl⟩ := List.mem_map.mp isItem
    exact Word.question_notMem_number n holds
  · rename_i head arms isSwitch
    rw [children, isSwitch] at parts
    rcases List.mem_cons.mp isItem with rfl | isCase
    · exact parts head List.mem_cons_self holds
    · obtain ⟨arm, isArm, rfl⟩ := List.mem_map.mp isCase
      refine Arm.question_notMem_form (fun r isBody => parts r ?_) holds
      exact List.mem_cons_of_mem _ (List.mem_filterMap.mpr ⟨arm, isArm, isBody⟩)
  · rcases List.mem_append.mp isItem with isCond | isPart
    · split at isCond
      · rw [List.mem_singleton.mp isCond] at holds
        exact Cond.question_notMem_formOptional node.cond holds
      · cases isCond
    · obtain ⟨r, isChild, rfl⟩ := List.mem_map.mp isPart
      exact parts r isChild holds

end Texts

/-! ## What a founded table gives -/

namespace NodeTable.Founded

variable {table : NodeTable} {isVertex : Nat → Prop} (founded : table.Founded isVertex)
include founded

/-- The way down from a region, through its first parts and the targets of jumps, ends at a
leaf. -/
theorem exists_firstVertex? {fuel i : Nat} (isRegion : (table i).isSome = true)
    (enough : i < fuel) : ∃ w, table.firstVertex? fuel i = some w ∧ isVertex w := by
  induction fuel generalizing i with
  | zero => cases enough
  | succ fuel inductionHypothesis =>
      obtain ⟨node, found⟩ := Option.isSome_iff_exists.mp isRegion
      have below {r : Nat} (refers : r ∈ node.references) :
          ∃ w, table.firstVertex? fuel r = some w ∧ isVertex w := by
        have earlier := founded.nested.below found r refers
        exact inductionHypothesis (founded.present found r refers) (by omega)
      rw [firstVertex?_succ, found]
      obtain ⟨shape, cond⟩ := node
      cases shape with
      | leaf vertex => exact ⟨vertex, rfl, founded.vertices found⟩
      | seq nodes =>
          cases nodes with
          | nil => exact absurd rfl (founded.nested.parts found)
          | cons first rest => exact below List.mem_cons_self
      | _ => exact below List.mem_cons_self

theorem closed : table.Closed fun i => table.firstVertex? (i + 1) i where
  nested := founded.nested
  present := founded.present
  starts _ enough := founded.nested.follows_congr table.follows_firstVertex?
    table.follows_firstVertex? enough (Nat.lt_succ_self _)

theorem question_notMem_form {start : Nat → Option Nat} {fuel i : Nat}
    (isRegion : (table i).isSome = true) (enough : i < fuel) :
    '?' ∉ (table.form start fuel i).chars := by
  induction fuel generalizing i with
  | zero => cases enough
  | succ fuel inductionHypothesis =>
      obtain ⟨node, found⟩ := Option.isSome_iff_exists.mp isRegion
      rw [form, found]
      refine Node.question_notMem_form fun r isChild => ?_
      have refers := Node.mem_references_of_mem_children isChild
      have earlier := founded.nested.below found r refers
      exact inductionHypothesis (founded.present found r refers) (by omega)

/-- The text of a region names no region that is missing. -/
theorem question_notMem_render {fuel i : Nat} (isRegion : (table i).isSome = true)
    (enough : i < fuel) : '?' ∉ (table.render fuel i).toList := by
  rw [founded.closed.toList_render enough]
  exact founded.question_notMem_form isRegion enough

end NodeTable.Founded

end FlowRegions
