import FlowRegions.Proofs.Execution.Landing

/-!
Contract: a wired tree visits what the flow visits.

A machine is in step with the flow when its tasks pass on from where the flow
stands.  Every step of the machine keeps it in step.  A step that visits nothing
makes the tasks lighter, so visits never fail to come.

Owns:
- `Tree.Wired`, what a tree has to be for this;
- `Tree.InStep`, the invariant of a run, and the step lemma;
- `Tree.Wired.execute_eq_visits`, the run lemma.
-/

namespace FlowRegions

namespace Tree

variable {tree : Tree} {behaviour : Behaviour} {follow : Nat → Option Nat} {entry : Nat}
  {machine : Machine}

def layout (tree : Tree) (targets : Nat → List Nat) (follow : Nat → Option Nat) : Layout where
  targets := targets
  table := tree.table
  first := tree.table.firstVertex? tree.nodes.size
  last := tree.table.branchingVertex? tree.nodes.size
  follow := follow

/-- A tree whose regions are wired, that starts at `entry`, is never left, and
has a leaf for every jump. -/
structure Wired (targets : Nat → List Nat) (follow : Nat → Option Nat) (entry : Nat)
    (tree : Tree) : Prop where
  nested : tree.table.Nested
  regions : ∀ {i node}, tree.table i = some node → (tree.layout targets follow).Wired i node
  starts : (tree.layout targets follow).first tree.root = some entry
  ends : ((tree.layout targets follow).leaving tree.root).Within .never
  jumps : ∀ {i target cond}, tree.table i = some ⟨.jump target, cond⟩ →
    ∃ w ∈ tree.leaves, (tree.layout targets follow).first target = some w

/-- The machine has halted where the flow ends, or its tasks pass on from where
the flow stands. -/
def InStep (tree : Tree) (behaviour : Behaviour) (follow : Nat → Option Nat) (entry : Nat)
    (machine : Machine) : Prop :=
  (machine.tasks = [] ∧ behaviour.Follows entry machine.journey.trace none) ∨
    ∃ P w, behaviour.Follows entry machine.journey.trace (some w) ∧
      P machine.journey.pending w ∧
      (tree.layout behaviour.targets follow).Linked P machine.tasks .never

/-! ## Ranks -/

def rankOf (tree : Tree) (i : Nat) : Nat :=
  match (tree.table i).map Node.kind with
  | some .leaf => 0
  | some .jump => 1
  | _ => i + 2

def rank (tree : Tree) : List Task → Nat
  | [] => 0
  | .run i :: _ => tree.rankOf i
  | .resume _ :: rest => tree.nodes.size + 3 + rank tree rest

theorem rankOf_le (tree : Tree) (i : Nat) : tree.rankOf i ≤ i + 2 := by
  unfold rankOf
  split <;> omega

theorem lt_size_of_table {i : Nat} {node : Node} (found : tree.table i = some node) :
    i < tree.nodes.size := by
  by_contra beyond
  have absent : tree.nodes[i]? = none := by simpa using beyond
  simp [table, absent] at found

theorem first_unfold {targets : Nat → List Nat} (nested : tree.table.Nested) {i : Nat}
    {node : Node} (found : tree.table i = some node) :
    (tree.layout targets follow).first i =
      NodeTable.firstLevel.at? (some node) (tree.layout targets follow).first := by
  rw [← found]
  exact NodeTable.walk_unfold _ NodeTable.firstVertex?_succ nested (lt_size_of_table found)

end Tree

/-- What a region puts on the stack begins with one of its parts. -/
theorem Task.strand_head {i : Nat} {shape : Shape Nat} {strand : List Task}
    (isStrand : strand ∈ strands i shape) :
    strand = [] ∨ ∃ c behind, strand = run c :: behind ∧ c ∈ shape.children := by
  cases shape with
  | seq nodes =>
      simp only [strands, opening, onward, List.mem_cons, List.not_mem_nil, or_false] at isStrand
      rcases isStrand with rfl | rfl | rfl
      · cases nodes with
        | nil => exact .inl rfl
        | cons first rest => exact .inr ⟨first, rest.map run, rfl, List.mem_cons_self⟩
      · exact .inl rfl
      · exact .inl rfl
  | switch head arms =>
      simp only [strands, opening, onward, List.mem_cons, List.mem_map] at isStrand
      rcases isStrand with rfl | rfl | rfl | ⟨⟨edges, body⟩, isArm, rfl⟩
      · exact .inr ⟨head, _, rfl, List.mem_cons_self⟩
      · exact .inl rfl
      · exact .inl rfl
      · cases body with
        | none => exact .inl rfl
        | some part =>
            exact .inr ⟨part, [], rfl, List.mem_cons_of_mem _
              (List.mem_filterMap.mpr ⟨_, isArm, rfl⟩)⟩
  | _ =>
      simp only [strands, opening, onward, List.mem_cons, List.not_mem_nil, or_false] at isStrand
      rcases isStrand with rfl | rfl | rfl <;> simp [Shape.children]

namespace Tree

variable {tree : Tree} {behaviour : Behaviour} {follow : Nat → Option Nat} {entry : Nat}
  {machine : Machine}

/-- Going on with a strand of a region is lighter than resuming the region. -/
theorem rank_strand_lt (nested : tree.table.Nested) {i : Nat} {node : Node}
    (found : tree.table i = some node) {strand rest : List Task}
    (isStrand : strand ∈ Task.strands i node.shape) :
    tree.rank (strand ++ rest) < tree.rank (.resume i :: rest) := by
  rcases Task.strand_head isStrand with rfl | ⟨c, behind, rfl, isChild⟩
  · simp only [List.nil_append, rank]
    omega
  · have earlier := nested.below found c (Node.mem_references_of_mem_children isChild)
    have within := lt_size_of_table found
    have light := tree.rankOf_le c
    simp only [List.cons_append, rank]
    omega

/-- Opening a region makes the tasks lighter. -/
theorem rank_opening_lt (nested : tree.table.Nested) {i : Nat} {node : Node}
    (found : tree.table i = some node) (notLeaf : node.kind ≠ .leaf)
    (notJump : node.kind ≠ .jump) (rest : List Task) :
    tree.rank (Task.opening i node.shape ++ rest) < tree.rank (.run i :: rest) := by
  have isRank : tree.rankOf i = i + 2 := by
    unfold rankOf
    rw [found]
    split
    · rename_i isLeaf
      exact absurd (Option.some.inj isLeaf) notLeaf
    · rename_i isJump
      exact absurd (Option.some.inj isJump) notJump
    · rfl
  have isStrand : Task.opening i node.shape ∈ Task.strands i node.shape := List.mem_cons_self
  rcases Task.strand_head isStrand with none | ⟨c, behind, isOpening, isChild⟩
  · obtain ⟨shape, cond⟩ := node
    cases shape with
    | leaf => exact absurd rfl notLeaf
    | jump => exact absurd rfl notJump
    | seq nodes => exact absurd (List.map_eq_nil_iff.mp none) (nested.parts found)
    | _ => cases none
  · have earlier := nested.below found c (Node.mem_references_of_mem_children isChild)
    have light := tree.rankOf_le c
    simp only [isOpening, List.cons_append, rank, isRank]
    omega

/-! ## Going on behind a head -/

theorem goOn_of_not_switch {i : Nat} {node : Node} (notSwitch : node.kind ≠ .switch)
    (journey : Journey) : tree.goOn behaviour i node journey =
      ((behaviour.test node.cond journey).1.map (Task.onward i node.shape),
        (behaviour.test node.cond journey).2) := by
  obtain ⟨shape, cond⟩ := node
  cases shape with
  | switch => exact absurd rfl notSwitch
  | _ => rfl

/-- A region that is resumed goes on with one of its strands, which passes on
from where the flow stands then. -/
theorem Wired.goOn_linked (wired : Wired behaviour.targets follow entry tree)
    (decides : behaviour.Decides) {i head w : Nat} {node : Node} {journey : Journey}
    (found : tree.table i = some node) (isTested : node.shape.tested? = some head)
    (follows : behaviour.Follows entry journey.trace (some w))
    (leaves : (tree.layout behaviour.targets follow).leaving head journey.pending w) :
    ∃ strand decided P w', tree.goOn behaviour i node journey = (some strand, decided) ∧
      strand ∈ Task.strands i node.shape ∧
      behaviour.Follows entry decided.trace (some w') ∧ P decided.pending w' ∧
      (tree.layout behaviour.targets follow).Linked P strand
        ((tree.layout behaviour.targets follow).leaving i) := by
  have isOnward (holds : Bool) : Task.onward i node.shape holds ∈ Task.strands i node.shape := by
    cases holds <;> simp [Task.strands]
  cases wired.regions found with
  | leaf | jump | seq | tail => cases isTested
  | forever opening again =>
      cases isTested
      refine ⟨_, journey, _, w, goOn_of_not_switch (by simp [Node.kind, Shape.kind]) journey,
        isOnward true, follows, leaves, opening.weaken again⟩
  | @twoWay shape head' whenTrue whenFalse cond isTested' notSwitch opening branch leads holds
      fails =>
      obtain rfl : head' = head := Option.some.inj (isTested'.symm.trans isTested)
      have ready : behaviour.Ready entry journey cond.first := by
        obtain ⟨position, isPending, isTarget⟩ := (Layout.leaving_of_last branch).mp leaves
        exact .inl ⟨position, w, isPending, isTarget, follows⟩
      obtain ⟨result, tested, evaluated, _, moved⟩ :=
        Behaviour.Ready.evaluate_eq decides leads ready
      have goes : tree.goOn behaviour i ⟨shape, some cond⟩ journey =
          (some (Task.onward i shape result), tested) := by
        have isNotSwitch : (⟨shape, some cond⟩ : Node).kind ≠ .switch := notSwitch
        rw [goOn_of_not_switch isNotSwitch, Behaviour.test, evaluated]
        rfl
      refine ⟨_, tested, .before (if result then whenTrue else whenFalse), _, goes,
        isOnward result, moved, rfl, ?_⟩
      cases result with
      | true => exact holds
      | false => exact fails
  | @switch head' last arms cond opening branch returning chosen =>
      cases isTested
      obtain ⟨position, isPending, isTarget⟩ := (Layout.leaving_of_last branch).mp leaves
      obtain ⟨arm, isArm, linked⟩ := chosen isTarget
      have decided : behaviour.decision journey last =
          (some position, { journey with pending := none }) := by
        simp [Behaviour.decision, isPending]
      have isLast : tree.table.branchingVertex? tree.nodes.size head = some last := branch
      have goes : tree.goOn behaviour i ⟨.switch head arms, cond⟩ journey =
          (some (Task.ofArm arm), { journey with pending := none }) := by
        simp only [goOn, isLast, decided, Option.bind_some, isArm, Option.map_some]
      refine ⟨_, _, .before w, w, goes, ?_, follows, rfl, linked⟩
      simp only [Task.strands, List.mem_cons, List.mem_map]
      exact .inr (.inr (.inr ⟨arm, List.mem_of_find?_eq_some isArm, rfl⟩))

/-! ## Landings -/

theorem Wired.exists_landing? (wired : Wired behaviour.targets follow entry tree)
    {i target : Nat} {cond : Option Cond} (isJump : tree.table i = some ⟨.jump target, cond⟩) :
    ∃ w leaf node behind, (tree.layout behaviour.targets follow).first target = some w ∧
      tree.landing? target = some (.run leaf :: behind) ∧ tree.table leaf = some node ∧
      node.leafVertex? = some w ∧
      (tree.layout behaviour.targets follow).Linked
        ((tree.layout behaviour.targets follow).leaving leaf) behind .never := by
  obtain ⟨w, isLeaf, first⟩ := wired.jumps isJump
  have isFirst : tree.table.firstVertex? tree.nodes.size target = some w := first
  have nothing : (tree.layout behaviour.targets follow).Linked
      ((tree.layout behaviour.targets follow).leaving tree.root) [] .never := wired.ends
  have regions {i : Nat} {node : Node}
      (found : (tree.layout behaviour.targets follow).table i = some node) := wired.regions found
  have lands {enter : Node → Bool} {tasks : List Task}
      (landed : tree.table.landing? enter w tree.nodes.size tree.root [] = some tasks) :=
    NodeTable.landing?_linked regions landed nothing
  refine ⟨w, ?_⟩
  unfold landing?
  rw [isFirst]
  dsimp only [Option.bind_some]
  cases outside : tree.table.landing? (fun node => node.kind != .tail) w tree.nodes.size
      tree.root [] with
  | some tasks =>
      obtain ⟨leaf, node, behind, rfl, facts⟩ := lands outside
      exact ⟨leaf, node, behind, first, rfl, facts⟩
  | none =>
      obtain ⟨tasks, inside⟩ :=
        NodeTable.exists_landing? isLeaf []
      obtain ⟨leaf, node, behind, rfl, facts⟩ := lands inside
      exact ⟨leaf, node, behind, first, by rw [Option.none_or]; exact inside, facts⟩

/-! ## One step -/

def Advances (tree : Tree) (machine next : Machine) : Prop :=
  machine.journey.trace.length < next.journey.trace.length ∨
    tree.rank next.tasks < tree.rank machine.tasks

section Step

variable (wired : Wired behaviour.targets follow entry tree) (decides : behaviour.Decides)
  {rest : List Task} {journey : Journey} {i w : Nat} {node : Node}

include decides in
theorem step_leaf {vertex : Nat} (nested : tree.table.Nested)
    (found : tree.table i = some node) (isLeaf : node.leafVertex? = some vertex)
    (follows : behaviour.Follows entry journey.trace (some vertex))
    (linked : (tree.layout behaviour.targets follow).Linked
      ((tree.layout behaviour.targets follow).leaving i) rest .never) :
    tree.InStep behaviour follow entry (tree.step behaviour ⟨.run i :: rest, journey⟩) ∧
      tree.Advances ⟨.run i :: rest, journey⟩ (tree.step behaviour ⟨.run i :: rest, journey⟩) := by
  obtain ⟨cond, rfl⟩ := Node.exists_leaf_of_leafVertex? isLeaf
  have steps : tree.step behaviour ⟨.run i :: rest, journey⟩ =
      { tasks := if (behaviour.visit journey vertex).pending.isSome then rest else []
        journey := behaviour.visit journey vertex } := by
    simp only [step, found]
  have isLast : (tree.layout behaviour.targets follow).last i = some vertex := by
    change tree.table.branchingVertex? tree.nodes.size i = _
    rw [NodeTable.walk_unfold _ NodeTable.branchingVertex?_succ nested (lt_size_of_table found),
      found]
    rfl
  rw [steps]
  refine ⟨?_, .inl (by simp [Behaviour.visit])⟩
  rcases follows.visit_cases decides with
    ⟨ended, none⟩ | ⟨position, w, isPending, isTarget, moved⟩
  · exact .inl ⟨by rw [none]; rfl, ended⟩
  · refine .inr ⟨_, w, moved, (Layout.leaving_of_last isLast).mpr
      ⟨position, isPending, isTarget⟩, ?_⟩
    rw [isPending]
    exact linked

include wired in
theorem step_jump {target : Nat} {cond : Option Cond}
    (isJump : tree.table i = some ⟨.jump target, cond⟩)
    (follows : behaviour.Follows entry journey.trace (some w))
    (enters : (tree.layout behaviour.targets follow).first i = some w) :
    tree.InStep behaviour follow entry (tree.step behaviour ⟨.run i :: rest, journey⟩) ∧
      tree.Advances ⟨.run i :: rest, journey⟩ (tree.step behaviour ⟨.run i :: rest, journey⟩) := by
  obtain ⟨w', leaf, node, behind, first, lands, isNode, isLeaf, linked⟩ :=
    wired.exists_landing? isJump
  have steps : tree.step behaviour ⟨.run i :: rest, journey⟩ = ⟨.run leaf :: behind, journey⟩ := by
    simp only [step, isJump, lands, Option.getD_some]
  have sameVertex : w' = w := by
    rw [first_unfold wired.nested isJump] at enters
    exact Option.some.inj (first.symm.trans enters)
  obtain ⟨leafCond, rfl⟩ := Node.exists_leaf_of_leafVertex? isLeaf
  rw [steps]
  refine ⟨.inr ⟨.before w, w, follows, rfl, ?_, linked⟩, .inr ?_⟩
  · rintro pending _ rfl
    rw [← sameVertex]
    exact first_unfold wired.nested isNode
  · simp only [rank, rankOf, isNode, isJump]
    exact Nat.zero_lt_one

include wired in
theorem step_opening (found : tree.table i = some node) (notLeaf : node.kind ≠ .leaf)
    (notJump : node.kind ≠ .jump) (follows : behaviour.Follows entry journey.trace (some w))
    (enters : (tree.layout behaviour.targets follow).first i = some w)
    (linked : (tree.layout behaviour.targets follow).Linked
      ((tree.layout behaviour.targets follow).leaving i) rest .never) :
    tree.InStep behaviour follow entry (tree.step behaviour ⟨.run i :: rest, journey⟩) ∧
      tree.Advances ⟨.run i :: rest, journey⟩ (tree.step behaviour ⟨.run i :: rest, journey⟩) := by
  have steps : tree.step behaviour ⟨.run i :: rest, journey⟩ =
      ⟨Task.opening i node.shape ++ rest, journey⟩ := by
    obtain ⟨shape, cond⟩ := node
    cases shape with
    | leaf => exact absurd rfl notLeaf
    | jump => exact absurd rfl notJump
    | _ => simp only [step, found]
  rw [steps]
  exact ⟨.inr ⟨_, w, follows, enters,
      ((wired.regions found).opening_linked notLeaf notJump).append linked⟩,
    .inr (rank_opening_lt wired.nested found notLeaf notJump rest)⟩

include wired decides in
theorem step_resume (follows : behaviour.Follows entry journey.trace (some w))
    (resumes : (tree.layout behaviour.targets follow).resuming i journey.pending w)
    (linked : (tree.layout behaviour.targets follow).Linked
      ((tree.layout behaviour.targets follow).leaving i) rest .never) :
    tree.InStep behaviour follow entry (tree.step behaviour ⟨.resume i :: rest, journey⟩) ∧
      tree.Advances ⟨.resume i :: rest, journey⟩
        (tree.step behaviour ⟨.resume i :: rest, journey⟩) := by
  obtain ⟨node, head, found, isTested, leaves⟩ := resumes
  obtain ⟨strand, decided, P, w', goes, isStrand, moved, stands, strandLinked⟩ :=
    wired.goOn_linked decides found isTested follows leaves
  have isNode : tree.table i = some node := found
  have steps : tree.step behaviour ⟨.resume i :: rest, journey⟩ = ⟨strand ++ rest, decided⟩ := by
    simp only [step, isNode, goes, Option.map_some, Option.getD_some]
  rw [steps]
  exact ⟨.inr ⟨P, w', moved, stands, strandLinked.append linked⟩,
    .inr (rank_strand_lt wired.nested found isStrand)⟩

end Step

/-- A machine in step takes a step that keeps it so, unless nothing is left to
do. -/
theorem Wired.step_inStep (wired : Wired behaviour.targets follow entry tree)
    (decides : behaviour.Decides) (inStep : tree.InStep behaviour follow entry machine) :
    tree.InStep behaviour follow entry (tree.step behaviour machine) ∧
      (machine.tasks = [] ∨ tree.Advances machine (tree.step behaviour machine)) := by
  rcases inStep with ⟨halted, ended⟩ | ⟨P, w, follows, stands, linked⟩
  · have same : tree.step behaviour machine = machine := by rw [step, halted]
    rw [same]
    exact ⟨.inl ⟨halted, ended⟩, .inl halted⟩
  obtain ⟨tasks, journey⟩ := machine
  cases tasks with
  | nil => exact (linked stands).elim
  | cons task rest =>
      cases task with
      | resume i =>
          have result := step_resume wired decides follows (linked.1 stands) linked.2
          exact ⟨result.1, .inr result.2⟩
      | run i =>
          have enters : (tree.layout behaviour.targets follow).first i = some w := linked.1 stands
          cases found : tree.table i with
          | none =>
              change tree.table.firstVertex? tree.nodes.size i = some w at enters
              cases size : tree.nodes.size with
              | zero =>
                  rw [size] at enters
                  cases enters
              | succ fuel =>
                  rw [size, NodeTable.firstVertex?_succ, found] at enters
                  cases enters
          | some node =>
              refine And.imp_right .inr ?_
              by_cases isLeaf : node.kind = .leaf
              · obtain ⟨shape, cond⟩ := node
                cases shape with
                | leaf vertex =>
                    rw [first_unfold wired.nested found] at enters
                    cases enters
                    exact step_leaf decides wired.nested found rfl follows linked.2
                | _ => cases isLeaf
              by_cases isJump : node.kind = .jump
              · obtain ⟨shape, cond⟩ := node
                cases shape with
                | jump target => exact step_jump wired found follows enters
                | _ => cases isJump
              exact step_opening wired found isLeaf isJump follows enters linked.2

/-! ## Runs -/

theorem step_extends (tree : Tree) (behaviour : Behaviour) (machine : Machine) :
    machine.journey.trace.length ≤ (tree.step behaviour machine).journey.trace.length := by
  have going (i : Nat) (node : Node) (journey : Journey) :
      journey.trace.length ≤ (tree.goOn behaviour i node journey).2.trace.length := by
    by_cases isSwitch : node.kind = .switch
    · obtain ⟨shape, cond⟩ := node
      cases shape with
      | switch head arms =>
          unfold goOn
          dsimp only
          split
          · exact Nat.le_refl _
          · exact behaviour.decision_extends journey _
      | _ => cases isSwitch
    · rw [goOn_of_not_switch isSwitch]
      exact behaviour.test_extends node.cond journey
  unfold step
  split
  · exact Nat.le_refl _
  · split
    · exact Nat.le_refl _
    · split
      · simp [Behaviour.visit]
      · exact Nat.le_refl _
      · exact Nat.le_refl _
  · split
    · exact Nat.le_refl _
    · exact going _ _ _

theorem execute_extends (tree : Tree) (behaviour : Behaviour) {fewer more : Nat}
    (le : fewer ≤ more) :
    (tree.execute behaviour fewer).journey.trace.length ≤
      (tree.execute behaviour more).journey.trace.length := by
  induction le with
  | refl => exact Nat.le_refl _
  | step _ inductionHypothesis =>
      exact Nat.le_trans inductionHypothesis (tree.step_extends behaviour _)

namespace Wired

variable (wired : Wired behaviour.targets follow entry tree) (decides : behaviour.Decides)
include wired decides

/-- Every state of a run is in step with the flow. -/
theorem execute_inStep (steps : Nat) :
    tree.InStep behaviour follow entry (tree.execute behaviour steps) := by
  induction steps with
  | zero =>
      refine .inr ⟨.before entry, entry, .start, rfl, ?_, wired.ends⟩
      rintro pending _ rfl
      exact wired.starts
  | succ steps inductionHypothesis => exact (wired.step_inStep decides inductionHypothesis).1

/-- A run that has not halted visits another vertex in time. -/
theorem exists_visit (steps : Nat) :
    ∃ later, steps ≤ later ∧ ((tree.execute behaviour later).tasks = [] ∨
      (tree.execute behaviour steps).journey.trace.length <
        (tree.execute behaviour later).journey.trace.length) := by
  -- By induction on the rank: a step that visits nothing lowers it.
  induction isRank : tree.rank (tree.execute behaviour steps).tasks using Nat.strongRecOn
    generalizing steps with
  | ind rank inductionHypothesis =>
      have next := (wired.step_inStep decides (wired.execute_inStep decides steps)).2
      rcases next with halted | visits | lighter
      · exact ⟨steps, Nat.le_refl _, .inl halted⟩
      · exact ⟨steps + 1, Nat.le_succ _, .inr visits⟩
      · obtain ⟨later, le, outcome⟩ :=
          inductionHypothesis _ (isRank ▸ lighter) (steps + 1) rfl
        refine ⟨later, by omega, outcome.imp_right fun visits => ?_⟩
        exact Nat.lt_of_le_of_lt (tree.step_extends behaviour _) visits

/-- A run comes to any number of visits, or halts. -/
theorem exists_long (n : Nat) :
    ∃ steps, (tree.execute behaviour steps).tasks = [] ∨
      n ≤ (tree.execute behaviour steps).journey.trace.length := by
  induction n with
  | zero => exact ⟨0, .inr (Nat.zero_le _)⟩
  | succ n inductionHypothesis =>
      obtain ⟨steps, halted | long⟩ := inductionHypothesis
      · exact ⟨steps, .inl halted⟩
      · obtain ⟨later, _, outcome⟩ := wired.exists_visit decides steps
        exact ⟨later, outcome.imp_right (Nat.lt_of_le_of_lt long)⟩

/-- The first visits of a run are the first visits of the flow. -/
theorem execute_eq_visits (n : Nat) :
    ∃ enough, ∀ steps, enough ≤ steps →
      (tree.execute behaviour steps).journey.trace.take n =
        behaviour.visits n [] (some entry) := by
  obtain ⟨enough, outcome⟩ := wired.exists_long decides n
  refine ⟨enough, fun steps le => ?_⟩
  have inStep := wired.execute_inStep decides steps
  rcases outcome with halted | long
  · -- A halted machine stays as it is.
    have same : tree.execute behaviour steps = tree.execute behaviour enough := by
      induction le with
      | refl => rfl
      | step _ inductionHypothesis =>
          rw [execute, inductionHypothesis (wired.execute_inStep decides _), step, halted]
    rw [same] at inStep ⊢
    rcases inStep with ⟨_, ended⟩ | ⟨P, w, _, stands, linked⟩
    · exact ended.take_eq_visits (.inr rfl)
    · rw [halted] at linked
      exact (linked stands).elim
  · have long := Nat.le_trans long (tree.execute_extends behaviour le)
    rcases inStep with ⟨_, ended⟩ | ⟨P, w, follows, _⟩
    · exact ended.take_eq_visits (.inl long)
    · exact follows.take_eq_visits (.inl long)

end Wired

end Tree

end FlowRegions
