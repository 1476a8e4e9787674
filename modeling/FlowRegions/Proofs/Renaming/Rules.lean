import FlowRegions.Proofs.Renaming.Regions

/-!
Contract: the rules under new names.

A rule looks at the queries of a few live regions, compares names for equality
and puts them together again, so that it finds the renamed collapse where it
found one before, and none where it found none.

Owns: `Twins.cyclic?_name`, `Twins.compound?_name` and `Twins.acyclic?_name`.
-/

namespace FlowRegions.RegionGraph

open FlowRegions.Digraph (root terminator)

/-! ## Searches -/

/-- What is found first is found first under new names. -/
theorem findSome?_map {ι κ γ δ : Type} (turn : ι → κ) {result : γ → δ} {find : ι → Option γ}
    {find' : κ → Option δ} (items : List ι)
    (same : ∀ x ∈ items, find' (turn x) = (find x).map result) :
    (items.map turn).findSome? find' = (items.findSome? find).map result := by
  induction items with
  | nil => rfl
  | cons x rest inductionHypothesis =>
      rw [List.map_cons, List.findSome?_cons, List.findSome?_cons, same x List.mem_cons_self]
      cases find x with
      | some found => rfl
      | none => exact inductionHypothesis fun y member => same y (List.mem_cons_of_mem x member)

/-- A scan of a list follows the names when each of its steps does. -/
theorem foldlM_map {ι κ γ δ : Type} (turn : ι → κ) {result : γ → δ} {take : γ → ι → Option γ}
    {take' : δ → κ → Option δ}
    (same : ∀ scan x, take' (result scan) (turn x) = (take scan x).map result)
    (items : List ι) (scan : γ) :
    (items.map turn).foldlM take' (result scan) = (items.foldlM take scan).map result := by
  induction items generalizing scan with
  | nil => rfl
  | cons x rest inductionHypothesis =>
      rw [List.map_cons, List.foldlM_cons, List.foldlM_cons, same]
      cases take scan x with
      | none => rfl
      | some next => exact inductionHypothesis next

/-- The ways of a two-way branch under new names. -/
theorem findSome?_ways {name : Nat → Nat} {find find' : Nat × Nat × Option Cond → Option Collapse}
    (whenTrue whenFalse : Nat) (cond : Option Cond)
    (same : ∀ arm follow cond, arm = whenTrue ∨ arm = whenFalse →
      find' (name arm, name follow, cond.map (Cond.relabel name)) =
        (find (arm, follow, cond)).map (Collapse.relabel name)) :
    [(name whenTrue, name whenFalse, cond.map (Cond.relabel name)),
      (name whenFalse, name whenTrue, (cond.map (Cond.relabel name)).map Cond.negate)].findSome?
        find' =
      ([(whenTrue, whenFalse, cond), (whenFalse, whenTrue, cond.map Cond.negate)].findSome?
        find).map (Collapse.relabel name) := by
  rw [Cond.map_negate_relabel]
  apply findSome?_map (fun way : Nat × Nat × Option Cond =>
    (name way.1, name way.2.1, way.2.2.map (Cond.relabel name)))
    [(whenTrue, whenFalse, cond), (whenFalse, whenTrue, cond.map Cond.negate)]
  intro way member
  rcases List.mem_pair.mp member with rfl | rfl
  · exact same _ _ _ (.inl rfl)
  · exact same _ _ _ (.inr rfl)

/-- Rules that each find the renamed collapse do so one after the other. -/
theorem findSome?_rules {name : Nat → Nat} {config config' : Config} {graph other : RegionGraph}
    {v : Nat} (rules : List (Config → RegionGraph → Nat → Option Collapse))
    (same : ∀ rule ∈ rules,
      rule config' other (name v) = (rule config graph v).map (Collapse.relabel name)) :
    (rules.findSome? fun rule => rule config' other (name v)) =
      (rules.findSome? fun rule => rule config graph v).map (Collapse.relabel name) := by
  conv_lhs => rw [← List.map_id rules]
  exact findSome?_map id rules same

def TopTest.relabel (name : Nat → Nat) (loop : TopTest) : TopTest where
  head := name loop.head
  body := name loop.body
  follow := name loop.follow
  cond := loop.cond.map (Cond.relabel name)
  returns := loop.returns

def SwitchScan.relabel (name : Nat → Nat) (scan : SwitchScan) : SwitchScan where
  follow := scan.follow.map name
  members := scan.members.map name
  returns := scan.returns

namespace Twins

variable {name : Nat → Nat} {kept : Nat → Prop} {graph other : RegionGraph}
  (twins : Twins name kept graph other) {config config' : Config}
  (agrees : config.Agrees name kept config') {v : Nat}
include twins

/-- The targets of a two-way branch are live. -/
theorem isLive_of_fork? {whenTrue whenFalse arm : Nat}
    (forks : graph.fork? config v = some (whenTrue, whenFalse))
    (isArm : arm = whenTrue ∨ arm = whenFalse) : graph.isLive arm = true := by
  refine twins.wellFormed.isLive_of_mem_branches (v := v) ?_
  rw [(fork?_eq_some forks).1, List.mem_cons, List.mem_singleton]
  exact isArm

/-! ## Loops -/

include agrees in
theorem selfLoop?_name (live : graph.isLive v = true) :
    selfLoop? config' other (name v) =
      (selfLoop? config graph v).map (Collapse.relabel name) := by
  have others : (((graph.branches v).map name).filter (· != name v)).eraseDups =
      ((graph.branches v).filter (· != v)).eraseDups.map name := by
    rw [filter_ne_map_name twins.injective, eraseDups_map_name twins.injective]
  have first : ((graph.branches v).map name).head? = some (name v) ↔
      (graph.branches v).head? = some v := by
    rw [List.head?_map, map_name_eq_some twins.injective]
  unfold selfLoop?
  dsimp only
  rw [twins.branches_name, twins.returns_name, twins.branchCond?_name,
    twins.branchesManyWays_name agrees live, others, contains_map_name twins.injective]
  simp only [List.isEmpty_map, List.length_map, first, Cond.map_negate_relabel, ← apply_ite]
  split
  · rfl
  split
  · rfl
  split
  · rfl
  · rfl

theorem initializer?_name (loop : TopTest) :
    other.initializer? (TopTest.relabel name loop) = (graph.initializer? loop).map name := by
  obtain ⟨head, body, follow, cond, returns⟩ := loop
  have outside : ((other.entrants (name head)).filter (· != name body)).Perm
      (((graph.entrants head).filter (· != body)).map name) :=
    twins.entrants_filter_perm (fun p => bne_name twins.injective p body) head
  show other.initializer? ⟨name head, name body, name follow, _, returns⟩ = _
  unfold initializer?
  dsimp only
  match isOutside : (graph.entrants head).filter (· != body) with
  | [] =>
      rw [isOutside, List.map_nil, List.perm_nil] at outside
      rw [outside]
      rfl
  | [init] =>
      rw [isOutside, List.map_cons, List.map_nil, List.perm_singleton] at outside
      rw [outside]
      dsimp only
      rw [twins.isLeaf_name, twins.successors_name, beq_singleton_map_name twins.injective,
        bne_name twins.injective, twins.bne_root]
      split <;> rfl
  | first :: second :: rest =>
      rw [isOutside] at outside
      match isOutside' : (other.entrants (name head)).filter (· != name body) with
      | [] | [_] =>
          have := outside.length_eq
          rw [isOutside'] at this
          simp at this
      | _ :: _ :: _ => rfl

include agrees in
theorem steppedBody?_name (live : graph.isLive v = true) :
    other.steppedBody? config' (name v) =
      (graph.steppedBody? config v).map (Prod.map (List.map name) name) := by
  unfold steppedBody?
  rw [twins.table_name]
  cases found : graph.table v with
  | none => rfl
  | some node =>
      obtain ⟨shape, cond⟩ := node
      cases shape with
      | seq nodes =>
          dsimp only [Option.map_some, Node.relabel, Shape.relabel]
          rw [List.getLast?_map]
          cases last : nodes.getLast? with
          | none => rfl
          | some step =>
              have hook : (other.table (name step)).any
                    (fun node => node.leafVertex?.any config'.isStep) =
                  (graph.table step).any fun node => node.leafVertex?.any config.isStep := by
                rw [twins.table_name]
                cases isStep : graph.table step with
                | none => rfl
                | some node =>
                    rw [Option.map_some, Option.any_some, Option.any_some,
                      Node.leafVertex?_relabel]
                    cases isLeaf : node.leafVertex? with
                    | none => rfl
                    | some w =>
                        have inner : w ∈ graph.leaves step :=
                          (twins.wellFormed.mem_leaves isStep).mpr (.inl isLeaf)
                        have isKept := twins.leaf live ((twins.wellFormed.mem_leaves found).mpr
                          (.inr ⟨step, List.mem_of_getLast? last, inner⟩))
                        exact agrees.isStep isKept
              dsimp only [Option.map_some]
              rw [hook, List.length_map, ← List.map_dropLast]
              split <;> rfl
      | _ => rfl

include agrees in
theorem forLoop?_name {loop : TopTest} (live : graph.isLive loop.body = true) :
    other.forLoop? config' (TopTest.relabel name loop) =
      (graph.forLoop? config loop).map (Collapse.relabel name) := by
  simp only [forLoop?, twins.initializer?_name]
  simp only [TopTest.relabel, twins.steppedBody?_name agrees live, twins.isLeaf_name]
  split
  · rfl
  cases graph.steppedBody? config loop.body with
  | none => rfl
  | some stepped =>
      obtain ⟨rest, step⟩ := stepped
      cases graph.initializer? loop with
      | none => rfl
      | some init =>
          match rest with
          | [only] => rfl
          | [] | _ :: _ :: _ =>
              -- The rest of the body becomes a region of its own, with the next name.
              dsimp only [Option.map_some, Prod.map, List.map_cons, List.map_nil]
              rw [← twins.renamed.name_size]
              rfl

include agrees in
theorem whileLoop?_name (live : graph.isLive v = true) :
    whileLoop? config' other (name v) =
      (whileLoop? config graph v).map (Collapse.relabel name) := by
  unfold whileLoop?
  rw [twins.fork?_name agrees live, twins.branchCond?_name]
  cases forks : graph.fork? config v with
  | none => rfl
  | some ways =>
      obtain ⟨whenTrue, whenFalse⟩ := ways
      refine findSome?_ways whenTrue whenFalse _ fun body follow cond isBody => ?_
      have bodyLive := twins.isLive_of_fork? forks isBody
      dsimp only
      rw [twins.entersAlone_name, twins.exits_name, beq_singleton_map_name twins.injective,
        twins.returns_name, twins.returns_name, agrees.forLoops]
      split
      · let loop : TopTest := ⟨v, body, follow, cond, graph.returns v || graph.returns body⟩
        have counting : other.forLoop? config' (TopTest.relabel name loop) = _ :=
          twins.forLoop?_name agrees bodyLive
        rw [TopTest.relabel] at counting
        rw [counting]
        split
        · cases graph.forLoop? config loop <;> rfl
        · rfl
      · rfl

include agrees in
theorem doWhile?_name :
    doWhile? config' other (name v) = (doWhile? config graph v).map (Collapse.relabel name) := by
  unfold doWhile?
  rw [twins.exits_name]
  match isExit : graph.exits v with
  | [] | _ :: _ :: _ => rfl
  | [latch] =>
      have latchLive : graph.isLive latch = true := by
        apply twins.wellFormed.isLive_of_mem_exits (v := v)
        rw [isExit]
        exact List.mem_singleton_self latch
      rw [List.map_singleton]
      dsimp only
      rw [twins.entersAlone_name, twins.binaryBranch?_name agrees latchLive, twins.branchCond?_name]
      simp only [twins.returns_name, twins.injective.eq_iff]
      split
      · rfl
      cases graph.binaryBranch? config latch with
      | none => rfl
      | some ways =>
          obtain ⟨whenTrue, whenFalse⟩ := ways
          dsimp only [Option.map_some, Prod.map]
          simp only [twins.injective.eq_iff, bne_name twins.injective, Cond.map_negate_relabel]
          split
          · rfl
          split <;> rfl

include agrees in
theorem cyclic?_name (live : graph.isLive v = true) :
    other.cyclic? config' (name v) = (graph.cyclic? config v).map (Collapse.relabel name) := by
  apply findSome?_rules [selfLoop?, whileLoop?, doWhile?]
  simp only [List.forall_mem_cons, List.not_mem_nil, false_imp_iff, implies_true, and_true]
  exact ⟨twins.selfLoop?_name agrees live, twins.whileLoop?_name agrees live,
    twins.doWhile?_name agrees⟩

/-! ## Compound conditions -/

theorem foldedBranch?_name (m : Nat) (outer inner : Cond × Nat × Nat) :
    let turn : Cond × Nat × Nat → Cond × Nat × Nat :=
      Prod.map (Cond.relabel name) (Prod.map name name)
    foldedBranch? (name m) (turn outer) (turn inner) = (foldedBranch? m outer inner).map turn := by
  obtain ⟨n, whenTrue, whenFalse⟩ := outer
  obtain ⟨test, innerTrue, innerFalse⟩ := inner
  simp only [foldedBranch?, Prod.map, twins.injective.eq_iff, Cond.negate_relabel]
  split
  · rfl
  split
  · rfl
  split
  · rfl
  split <;> rfl

include agrees in
theorem isFoldable_name (labels : List Nat) (n : Nat) {m : Nat} (live : graph.isLive m = true) :
    isFoldable config' (labels.map name) other (name n) (name m) =
      isFoldable config labels graph n m := by
  unfold isFoldable
  rw [twins.table_name, twins.entersAlone_name, twins.returns_name]
  cases found : graph.table m with
  | none => rfl
  | some node =>
      rw [Option.map_some, Option.bind_some, Option.bind_some, Node.leafVertex?_relabel]
      cases isLeaf : node.leafVertex? with
      | none => rfl
      | some vertex =>
          have isKept := twins.leaf live ((twins.wellFormed.mem_leaves found).mpr (.inl isLeaf))
          dsimp only [Option.map_some]
          rw [agrees.onlyTests isKept, contains_map_name twins.injective]

include agrees in
theorem compound?_name (labels : List Nat) (live : graph.isLive v = true) :
    compound? config' (labels.map name) other (name v) =
      (compound? config labels graph v).map (Collapse.relabel name) := by
  unfold compound?
  rw [twins.table_name, twins.fork?_name agrees live, twins.branchCond?_name, twins.returns_name]
  cases graph.table v with
  | none => rfl
  | some head =>
      cases forks : graph.fork? config v with
      | none => rfl
      | some ways =>
          obtain ⟨whenTrue, whenFalse⟩ := ways
          cases graph.branchCond? v with
          | none => rfl
          | some cond =>
              dsimp only [Option.map_some, Prod.map]
              rw [Node.kind_relabel]
              split
              · rfl
              refine findSome?_map name [whenTrue, whenFalse] fun m isArm => ?_
              have armLive := twins.isLive_of_fork? forks (List.mem_pair.mp isArm)
              rw [twins.isFoldable_name agrees labels v armLive, twins.fork?_name agrees armLive,
                twins.branchCond?_name]
              split
              · rfl
              cases graph.fork? config m with
              | none => rfl
              | some inner =>
                  obtain ⟨innerTrue, innerFalse⟩ := inner
                  cases graph.branchCond? m with
                  | none => rfl
                  | some test =>
                      have folds := twins.foldedBranch?_name m (cond, whenTrue, whenFalse)
                        (test, innerTrue, innerFalse)
                      dsimp only [Prod.map] at folds
                      dsimp only [Option.map_some, Prod.map]
                      rw [folds]
                      cases foldedBranch? m (cond, whenTrue, whenFalse)
                        (test, innerTrue, innerFalse) <;> rfl

/-! ## Acyclic regions -/

theorem sequenceParts_name (v : Nat) :
    other.sequenceParts (name v) = (graph.sequenceParts v).map name := by
  unfold sequenceParts
  rw [twins.table_name]
  cases graph.table v with
  | none => rfl
  | some node =>
      obtain ⟨shape, cond⟩ := node
      cases shape with
      | seq nodes => cases cond <;> rfl
      | _ => rfl

theorem sequence?_name :
    sequence? config' other (name v) = (sequence? config graph v).map (Collapse.relabel name) := by
  unfold sequence?
  rw [twins.exits_name]
  match graph.exits v with
  | [] | _ :: _ :: _ => rfl
  | [next] =>
      rw [List.map_singleton]
      dsimp only
      rw [twins.entersAlone_name, twins.exits_name, contains_map_name twins.injective,
        twins.sequenceParts_name, twins.sequenceParts_name, twins.successors_name,
        twins.returns_name, ← List.map_append]
      simp only [twins.injective.eq_iff]
      split <;> rfl

include agrees in
theorem ifElse?_name (live : graph.isLive v = true) :
    ifElse? config' other (name v) = (ifElse? config graph v).map (Collapse.relabel name) := by
  unfold ifElse?
  rw [twins.fork?_name agrees live]
  cases graph.fork? config v with
  | none => rfl
  | some ways =>
      obtain ⟨thenArm, elseArm⟩ := ways
      dsimp only [Option.map_some, Prod.map]
      rw [twins.exits_name, twins.exits_name, ← List.map_append,
        eraseDups_map_name twins.injective, twins.branchCond?_name]
      have overlaps (follow : List Nat) : [name v, name thenArm, name elseArm].any
          (follow.map name).contains = [v, thenArm, elseArm].any follow.contains := by
        simp only [List.any_cons, contains_map_name twins.injective, List.any_nil]
      rw [overlaps, List.length_map]
      simp only [twins.entersAlone_name, twins.returns_name]
      split
      · rfl
      split <;> rfl

include agrees in
theorem ifThen?_name (live : graph.isLive v = true) :
    ifThen? config' other (name v) = (ifThen? config graph v).map (Collapse.relabel name) := by
  unfold ifThen?
  rw [twins.fork?_name agrees live, twins.branchCond?_name]
  cases graph.fork? config v with
  | none => rfl
  | some ways =>
      obtain ⟨whenTrue, whenFalse⟩ := ways
      refine findSome?_ways whenTrue whenFalse _ fun arm follow cond _ => ?_
      dsimp only
      rw [twins.entersAlone_name, twins.exits_name, beq_singleton_map_name twins.injective,
        twins.returns_name, twins.returns_name, List.isEmpty_map]
      split <;> rfl

theorem meet?_name (n d : Nat) (follow : Option Nat) (exit : Nat) :
    SwitchScan.meet? (name n) (name d) (follow.map name) (name exit) =
      (SwitchScan.meet? n d follow exit).map (Option.map name) := by
  unfold SwitchScan.meet?
  simp only [twins.injective.eq_iff]
  split
  · rfl
  cases follow with
  | none => rfl
  | some place =>
      dsimp only [Option.map_some]
      simp only [twins.injective.eq_iff]
      split <;> rfl

theorem take?_name (n : Nat) (scan : SwitchScan) (d : Nat) :
    SwitchScan.take? other (name n) (scan.relabel name) (name d) =
      (SwitchScan.take? graph n scan d).map (SwitchScan.relabel name) := by
  obtain ⟨follow, members, returns⟩ := scan
  show SwitchScan.take? other (name n) ⟨follow.map name, members.map name, returns⟩ (name d) = _
  unfold SwitchScan.take?
  dsimp only
  rw [twins.exits_name, foldlM_map name (twins.meet?_name n d), twins.returns_name]
  simp only [map_name_eq_some twins.injective]
  split
  · rfl
  cases (graph.exits d).foldlM (SwitchScan.meet? n d) follow with
  | none => rfl
  | some place =>
      show some (SwitchScan.mk (place.map name) (members.map name ++ [name d]) _) =
        some (SwitchScan.mk (place.map name) ((members ++ [d]).map name) _)
      rw [List.map_append, List.map_singleton]

theorem positionsOf_name (branches : List Nat) (target : Nat) :
    positionsOf (branches.map name) (name target) = positionsOf branches target := by
  unfold positionsOf
  rw [List.zipIdx_map, List.filter_map, List.map_map]
  simp only [Function.comp_def, Prod.map, beq_name twins.injective, id]

include agrees in
theorem switch?_name (live : graph.isLive v = true) :
    switch? config' other (name v) = (switch? config graph v).map (Collapse.relabel name) := by
  have shared (targets : List Nat) :
      (targets.map name).filter (fun d => !other.entersAlone (name v) d) =
        (targets.filter fun d => !graph.entersAlone v d).map name := by
    rw [List.filter_map]
    simp only [Function.comp_def, twins.entersAlone_name]
  have scanned (targets : List Nat) (follow : Option Nat) (returns : Bool) :
      (targets.map name).foldlM (SwitchScan.take? other (name v))
          ⟨follow.map name, [name v], returns⟩ =
        (targets.foldlM (SwitchScan.take? graph v) ⟨follow, [v], returns⟩).map
          (SwitchScan.relabel name) :=
    foldlM_map name (twins.take?_name v) targets ⟨follow, [v], returns⟩
  unfold switch?
  dsimp only
  rw [twins.branches_name, eraseDups_map_name twins.injective, shared, List.head?_map, scanned,
    twins.returns_name, twins.branchesManyWays_name agrees live, List.isEmpty_map,
    contains_map_name twins.injective, List.length_map]
  split
  · rfl
  cases ((graph.branches v).eraseDups.foldlM (SwitchScan.take? graph v) _) with
  | none => rfl
  | some scan =>
      have arms : ((graph.branches v).eraseDups.map name).map (fun d =>
            (⟨positionsOf ((graph.branches v).map name) d,
              if scan.follow.map name = some d then none else some d⟩ : Arm Nat)) =
          ((graph.branches v).eraseDups.map fun d => (⟨positionsOf (graph.branches v) d,
            if scan.follow = some d then none else some d⟩ : Arm Nat)).map (Arm.relabel name) := by
        rw [List.map_map, List.map_map]
        refine List.map_congr_left fun d _ => ?_
        simp only [Function.comp_def, twins.positionsOf_name, map_name_eq_some twins.injective,
          Arm.relabel]
        split <;> rfl
      have out : (scan.follow.map name).toList = scan.follow.toList.map name := by
        cases scan.follow <;> rfl
      dsimp only [Option.map_some, SwitchScan.relabel]
      rw [arms, out]
      rfl

include agrees in
theorem acyclic?_name (live : graph.isLive v = true) :
    other.acyclic? config' (name v) = (graph.acyclic? config v).map (Collapse.relabel name) := by
  apply findSome?_rules [sequence?, ifElse?, ifThen?, switch?]
  simp only [List.forall_mem_cons, List.not_mem_nil, false_imp_iff, implies_true, and_true]
  exact ⟨twins.sequence?_name, twins.ifElse?_name agrees live, twins.ifThen?_name agrees live,
    twins.switch?_name agrees live⟩

end Twins

end FlowRegions.RegionGraph
