import FlowRegions.Proofs.Execution.Decisions

/-!
Contract: regions whose parts fit together along the flow.

A point of a run is described by the decision that is pending and the vertex
that is next in the flow.  Every region is entered where it starts and left at
the branch of its last leaf, or at the one place that follows it.  A region is
wired when each list of tasks it may put on the stack passes from one such point
to the next.

Owns:
- `Layout`, what this depends on, and `Layout.Linked`, tasks that pass from
  point to point;
- `Layout.Wired`, one case for each way regions are built;
- that wiring stays when the table grows.
-/

namespace FlowRegions

def Shape.tested? : Shape Nat → Option Nat
  | .ifThen head _ | .ifElse head _ _ | .switch head _ | .whileLoop head _ => some head
  | .selfLoop body => some body
  | .doWhile _ latch => some latch
  | .forLoop _ head _ _ => some head
  | _ => none

theorem Shape.mem_children_of_tested? {shape : Shape Nat} {head : Nat}
    (isTested : shape.tested? = some head) : head ∈ shape.children := by
  cases shape with
  | leaf | seq | jump | tail => cases isTested
  | _ =>
      cases isTested
      simp [children]

namespace Task

def region : Task → Nat
  | run region | resume region => region

/-- Tasks of a region are about the region and its parts. -/
theorem region_of_mem_strands {i : Nat} {shape : Shape Nat} {strand : List Task}
    (isStrand : strand ∈ strands i shape) {task : Task} (member : task ∈ strand) :
    task.region = i ∨ task.region ∈ shape.children := by
  cases shape with
  | seq nodes =>
      simp only [strands, opening, onward, List.mem_cons, List.not_mem_nil, or_false] at isStrand
      rcases isStrand with rfl | rfl | rfl
      · obtain ⟨node, isNode, rfl⟩ := List.mem_map.mp member
        exact .inr isNode
      · cases member
      · cases member
  | switch head arms =>
      simp only [strands, opening, onward, List.mem_cons, List.mem_map] at isStrand
      rcases isStrand with rfl | rfl | rfl | ⟨arm, isArm, rfl⟩
      · simp only [List.mem_cons, List.not_mem_nil, or_false] at member
        rcases member with rfl | rfl <;> simp [region, Shape.children]
      · cases member
      · cases member
      · obtain ⟨body, isBody, rfl⟩ := List.mem_map.mp member
        rw [Option.mem_toList] at isBody
        exact .inr (List.mem_cons_of_mem _ (List.mem_filterMap.mpr ⟨arm, isArm, isBody⟩))
  | _ =>
      simp only [strands, opening, onward, List.mem_cons, List.not_mem_nil, or_false] at isStrand
      rcases isStrand with rfl | rfl | rfl <;>
        simp only [List.mem_cons, List.not_mem_nil, or_false] at member
      all_goals
        rcases member with rfl | rfl | rfl | rfl | rfl
      all_goals simp [region, Shape.children]

end Task

/-! ## Points -/

/-- The pending decisions and next vertices that a point of a run admits. -/
def Point : Type :=
  Option (Nat × Nat) → Nat → Prop

def Point.Within (point other : Point) : Prop :=
  ∀ ⦃pending w⦄, point pending w → other pending w

theorem Point.Within.rfl {point : Point} : point.Within point :=
  fun _ _ holds => holds

def Point.never : Point :=
  fun _ _ => False

def Point.before (v : Nat) : Point :=
  fun _ w => w = v

/-- What decides whether tasks fit together: the targets in the flow, the
regions, the vertices where they start and the vertices whose branches end
them, and what follows the others. -/
structure Layout where
  targets : Nat → List Nat
  table : NodeTable
  first : Nat → Option Nat
  last : Nat → Option Nat
  follow : Nat → Option Nat

namespace Layout

variable {layout changed : Layout} {P P' Q Q' R : Point} {tasks more : List Task} {i v : Nat}
  {node : Node}

def entering (layout : Layout) (i : Nat) : Point :=
  fun _ w => layout.first i = some w

/-- Where a region is left: at the branch that ends it, or at what follows
it. -/
def leaving (layout : Layout) (i : Nat) : Point :=
  fun pending w =>
    match layout.last i with
    | some last => ∃ position, pending = some (last, position) ∧
        (layout.targets last)[position]? = some w
    | none => layout.follow i = some w

/-- Where a region is resumed: where its tested part is left. -/
def resuming (layout : Layout) (i : Nat) : Point :=
  fun pending w => ∃ node head, layout.table i = some node ∧ node.shape.tested? = some head ∧
    layout.leaving head pending w

def Linked (layout : Layout) : Point → List Task → Point → Prop
  | P, [], Q => P.Within Q
  | P, .run i :: rest, Q => P.Within (layout.entering i) ∧ Linked layout (layout.leaving i) rest Q
  | P, .resume i :: rest, Q =>
    P.Within (layout.resuming i) ∧ Linked layout (layout.leaving i) rest Q

theorem leaving_of_last {last : Nat} (isLast : layout.last i = some last)
    {pending : Option (Nat × Nat)} {w : Nat} : layout.leaving i pending w ↔
      ∃ position, pending = some (last, position) ∧
        (layout.targets last)[position]? = some w := by
  rw [leaving, isLast]

theorem leaving_of_no_last (noLast : layout.last i = none) {pending : Option (Nat × Nat)}
    {w : Nat} : layout.leaving i pending w ↔ layout.follow i = some w := by
  rw [leaving, noLast]

namespace Linked

theorem weaken (linked : layout.Linked P tasks Q) (earlier : P'.Within P) :
    layout.Linked P' tasks Q := by
  cases tasks with
  | nil => exact fun _ _ holds => linked (earlier holds)
  | cons task rest =>
      cases task with
      | run | resume => exact ⟨fun _ _ holds => linked.1 (earlier holds), linked.2⟩

theorem append (linked : layout.Linked P tasks Q) (behind : layout.Linked Q more R) :
    layout.Linked P (tasks ++ more) R := by
  induction tasks generalizing P with
  | nil => exact behind.weaken linked
  | cons task rest inductionHypothesis =>
      cases task with
      | run | resume => exact ⟨linked.1, inductionHypothesis linked.2⟩

/-- What is left to do behind a region that tasks run begins where the region
is left. -/
theorem place {part : Nat} {behind : List Task} (linked : layout.Linked P tasks Q)
    (isPlace : (part, behind) ∈ Task.places tasks) :
    layout.Linked (layout.leaving part) behind Q := by
  induction tasks generalizing P with
  | nil => cases isPlace
  | cons task rest inductionHypothesis =>
      cases task with
      | run i =>
          rcases List.mem_cons.mp isPlace with isFirst | isLater
          · cases isFirst
            exact linked.2
          · exact inductionHypothesis linked.2 isLater
      | resume i => exact inductionHypothesis linked.2 isPlace

end Linked

/-! ## Wired regions -/

/-- Regions whose tasks fit together, by the way they are built. -/
inductive Wired (layout : Layout) (i : Nat) : Node → Prop where
  | leaf {vertex : Nat} {cond : Option Cond} : Wired layout i ⟨.leaf vertex, cond⟩
  | jump {target : Nat} {cond : Option Cond} : Wired layout i ⟨.jump target, cond⟩
  | seq {nodes : List Nat} {cond : Option Cond}
      (opening : layout.Linked (layout.entering i) (nodes.map .run) (layout.leaving i)) :
      Wired layout i ⟨.seq nodes, cond⟩
  | tail {body : Nat} {cond : Option Cond}
      (opening : layout.Linked (layout.entering i) [.run body] (layout.leaving i)) :
      Wired layout i ⟨.tail body, cond⟩
  | forever {body : Nat}
      (opening : layout.Linked (layout.entering i) [.run body, .resume i] (layout.leaving i))
      (again : (layout.leaving body).Within (layout.entering i)) :
      Wired layout i ⟨.selfLoop body, none⟩
  | twoWay {shape : Shape Nat} {head whenTrue whenFalse : Nat} {cond : Cond}
      (isTested : shape.tested? = some head) (notSwitch : shape.kind ≠ .switch)
      (opening : layout.Linked (layout.entering i) (Task.opening i shape) (layout.leaving i))
      (branch : layout.last head = some cond.first)
      (leads : cond.Leads layout.targets whenTrue whenFalse)
      (holds : layout.Linked (.before whenTrue) (Task.onward i shape true) (layout.leaving i))
      (fails : layout.Linked (.before whenFalse) (Task.onward i shape false) (layout.leaving i)) :
      Wired layout i ⟨shape, some cond⟩
  | switch {head last : Nat} {arms : List (Arm Nat)} {cond : Option Cond}
      (opening : layout.Linked (layout.entering i) [.run head, .resume i] (layout.leaving i))
      (branch : layout.last head = some last)
      (returning : ∀ arm ∈ arms, layout.Linked .never (Task.ofArm arm) (layout.leaving i))
      (chosen : ∀ {position w}, (layout.targets last)[position]? = some w →
        ∃ arm, arms.find? (·.edges.contains position) = some arm ∧
          layout.Linked (.before w) (Task.ofArm arm) (layout.leaving i)) :
      Wired layout i ⟨.switch head arms, cond⟩

namespace Wired

theorem opening_linked (wired : layout.Wired i node) (notLeaf : node.kind ≠ .leaf)
    (notJump : node.kind ≠ .jump) :
    layout.Linked (layout.entering i) (Task.opening i node.shape) (layout.leaving i) := by
  cases wired with
  | leaf => exact absurd rfl notLeaf
  | jump => exact absurd rfl notJump
  | seq opening | tail opening | forever opening | twoWay _ _ opening | switch opening =>
      exact opening

/-- Everything a wired region may put on the stack ends where the region is
left. -/
theorem strand_linked (wired : layout.Wired i node) {strand : List Task}
    (isStrand : strand ∈ Task.strands i node.shape) :
    ∃ P, layout.Linked P strand (layout.leaving i) := by
  have nothing : layout.Linked .never [] (layout.leaving i) := fun _ _ impossible => impossible.elim
  cases wired with
  | leaf | jump =>
      simp only [Task.strands, Task.opening, Task.onward, List.mem_cons, List.not_mem_nil,
        or_false] at isStrand
      rcases isStrand with rfl | rfl | rfl <;> exact ⟨_, nothing⟩
  | seq opening | tail opening =>
      simp only [Task.strands, Task.opening, Task.onward, List.mem_cons, List.not_mem_nil,
        or_false] at isStrand
      rcases isStrand with rfl | rfl | rfl
      · exact ⟨_, opening⟩
      · exact ⟨_, nothing⟩
      · exact ⟨_, nothing⟩
  | forever opening again =>
      simp only [Task.strands, Task.opening, Task.onward, List.mem_cons, List.not_mem_nil,
        or_false] at isStrand
      rcases isStrand with rfl | rfl | rfl
      · exact ⟨_, opening⟩
      · exact ⟨_, opening⟩
      · exact ⟨_, nothing⟩
  | @twoWay shape _ _ _ _ _ notSwitch opening branch leads holds fails =>
      have noArms : Task.strands i shape =
          [Task.opening i shape, Task.onward i shape true, Task.onward i shape false] := by
        cases shape with
        | switch => exact absurd rfl notSwitch
        | _ => rfl
      rw [noArms] at isStrand
      simp only [List.mem_cons, List.not_mem_nil, or_false] at isStrand
      rcases isStrand with rfl | rfl | rfl
      · exact ⟨_, opening⟩
      · exact ⟨_, holds⟩
      · exact ⟨_, fails⟩
  | switch opening branch returning chosen =>
      simp only [Task.strands, Task.opening, Task.onward, List.mem_cons, List.mem_map] at isStrand
      rcases isStrand with rfl | rfl | rfl | ⟨arm, isArm, rfl⟩
      · exact ⟨_, opening⟩
      · exact ⟨_, nothing⟩
      · exact ⟨_, nothing⟩
      · exact ⟨_, returning arm isArm⟩

end Wired

/-! ## Growing tables -/

/-- Two layouts that agree about the regions below a size. -/
structure Agrees (layout changed : Layout) (size : Nat) : Prop where
  targets : changed.targets = layout.targets
  table : ∀ {i}, i < size → changed.table i = layout.table i
  first : ∀ {i}, i < size → changed.first i = layout.first i
  last : ∀ {i}, i < size → changed.last i = layout.last i
  follow : ∀ {i}, i < size → changed.follow i = layout.follow i

namespace Agrees

variable {size : Nat} (agrees : layout.Agrees changed size)
include agrees

theorem entering_eq (within : i < size) : changed.entering i = layout.entering i := by
  unfold entering
  rw [agrees.first within]

theorem leaving_eq (within : i < size) : changed.leaving i = layout.leaving i := by
  unfold leaving
  rw [agrees.last within, agrees.follow within, agrees.targets]

variable (nested : layout.table.Nested)
include nested

theorem resuming_eq (within : i < size) : changed.resuming i = layout.resuming i := by
  unfold resuming
  rw [agrees.table within]
  funext pending w
  simp only [eq_iff_iff]
  have leavingHead {node : Node} {head : Nat} (found : layout.table i = some node)
      (isTested : node.shape.tested? = some head) :
      changed.leaving head = layout.leaving head := by
    have earlier := nested.below found head
      (Node.mem_references_of_mem_children (Shape.mem_children_of_tested? isTested))
    exact agrees.leaving_eq (Nat.lt_trans earlier within)
  constructor
  · rintro ⟨node, head, found, isTested, leaves⟩
    exact ⟨node, head, found, isTested, leavingHead found isTested ▸ leaves⟩
  · rintro ⟨node, head, found, isTested, leaves⟩
    exact ⟨node, head, found, isTested, (leavingHead found isTested).symm ▸ leaves⟩

theorem linked (old : ∀ task ∈ tasks, task.region < size) (linked : layout.Linked P tasks Q) :
    changed.Linked P tasks Q := by
  induction tasks generalizing P with
  | nil => exact linked
  | cons task rest inductionHypothesis =>
      have behind {P : Point} (linked : layout.Linked P rest Q) :=
        inductionHypothesis (fun other member => old other (List.mem_cons_of_mem _ member)) linked
      cases task with
      | run i =>
          have within : i < size := old (.run i) List.mem_cons_self
          rw [Linked, agrees.entering_eq within, agrees.leaving_eq within]
          exact ⟨linked.1, behind linked.2⟩
      | resume i =>
          have within : i < size := old (.resume i) List.mem_cons_self
          rw [Linked, agrees.resuming_eq nested within, agrees.leaving_eq within]
          exact ⟨linked.1, behind linked.2⟩

/-- Wired regions stay wired. -/
theorem wired (found : layout.table i = some node) (within : i < size)
    (wired : layout.Wired i node) : changed.Wired i node := by
  have earlier {c : Nat} (isChild : c ∈ node.children) : c < size :=
    Nat.lt_trans (nested.below found c (Node.mem_references_of_mem_children isChild)) within
  have links {P : Point} {strand : List Task} (isStrand : strand ∈ Task.strands i node.shape)
      (linked : layout.Linked P strand (layout.leaving i)) :
      changed.Linked P strand (changed.leaving i) := by
    rw [agrees.leaving_eq within]
    refine agrees.linked nested (fun task member => ?_) linked
    rcases Task.region_of_mem_strands isStrand member with same | isChild
    · rw [same]
      exact within
    · exact earlier isChild
  have entering := agrees.entering_eq within
  have isOpening : Task.opening i node.shape ∈ Task.strands i node.shape := List.mem_cons_self
  have isOnward (holds : Bool) : Task.onward i node.shape holds ∈ Task.strands i node.shape := by
    cases holds <;> simp [Task.strands]
  cases wired with
  | leaf => exact .leaf
  | jump => exact .jump
  | seq opening => exact .seq (entering ▸ links isOpening opening)
  | tail opening => exact .tail (entering ▸ links isOpening opening)
  | forever opening again =>
      refine .forever (entering ▸ links isOpening opening) ?_
      rw [entering, agrees.leaving_eq (earlier List.mem_cons_self)]
      exact again
  | twoWay isTested notSwitch opening branch leads holds fails =>
      refine .twoWay isTested notSwitch (entering ▸ links isOpening opening) ?_
        (agrees.targets ▸ leads) (links (isOnward true) holds) (links (isOnward false) fails)
      rw [agrees.last (earlier (Shape.mem_children_of_tested? isTested))]
      exact branch
  | @switch head _ arms _ opening branch returning chosen =>
      have isArm {arm : Arm Nat} (member : arm ∈ arms) :
          Task.ofArm arm ∈ Task.strands i (.switch head arms) := by
        simp only [Task.strands, List.mem_cons, List.mem_map]
        exact .inr (.inr (.inr ⟨arm, member, rfl⟩))
      have sameLast : changed.last head = layout.last head :=
        agrees.last (earlier List.mem_cons_self)
      refine .switch (entering ▸ links isOpening opening) (sameLast.trans branch)
        (fun arm member => links (isArm member) (returning arm member)) ?_
      intro position w isTarget
      rw [agrees.targets] at isTarget
      obtain ⟨arm, found, linked⟩ := chosen isTarget
      exact ⟨arm, found, links (isArm (List.mem_of_find?_eq_some found)) linked⟩

end Agrees

end Layout

end FlowRegions
