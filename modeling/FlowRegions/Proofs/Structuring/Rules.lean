import FlowRegions.Structuring.Branches
import FlowRegions.Structuring.Loops
import FlowRegions.Proofs.Structuring.CollapseEffect

/-!
Contract: what each rule recognises, in terms of edges.

Owns:
- `RegionGraph.Matches`, one constructor for each rule, with the facts about the
  graph that the rule has checked and the collapse it finds;
- that every collapse a rule finds is matched, and that every matched collapse
  fits the graph.

Everything else about the rules is proved from `Matches`, never from their
definitions.
-/

namespace FlowRegions.RegionGraph

open FlowRegions.Digraph (root terminator)

variable {config : Config} {labels : List Nat} {graph : RegionGraph} {v : Nat}
  {collapse : Collapse}

/-! ## What the rules check -/

/-- A region with two branches: to `taken` when `cond` holds, else to
`other`. -/
structure TwoWay (config : Config) (graph : RegionGraph) (v taken other : Nat)
    (cond : Option Cond) : Prop where
  notMany : graph.branchesManyWays config v = false
  order : (graph.branches v = [taken, other] ∧ cond = graph.branchCond? v) ∨
    (graph.branches v = [other, taken] ∧ cond = (graph.branchCond? v).map Cond.negate)

/-- A loop with its test at the top: the body is entered from the head only and
leads back to it only. -/
structure TopTested (config : Config) (graph : RegionGraph) (head body follow : Nat)
    (cond : Option Cond) : Prop where
  twoWay : TwoWay config graph head body follow cond
  body_ne_follow : body ≠ follow
  body_ne_head : body ≠ head
  follow_ne_head : follow ≠ head
  body_alone : graph.entersAlone head body = true
  body_exits : graph.exits body = [head]

structure Counting (config : Config) (graph : RegionGraph)
    (head body follow init step : Nat) (nodes : List Nat) : Prop where
  head_leaf : graph.isLeaf head = true
  body_parts : ∃ cond, graph.table body = some ⟨.seq nodes, cond⟩
  several : 2 ≤ nodes.length
  step_last : nodes.getLast? = some step
  init_only : (graph.entrants head).filter (· != body) = [init]
  init_ne_root : init ≠ root
  init_ne_follow : init ≠ follow
  init_leaf : graph.isLeaf init = true
  init_successors : graph.successors init = [head]

/-- The part of a counting loop that holds what its body does before the step:
a region of the body, or a sequence of its own. -/
inductive Inner (graph : RegionGraph) : List Nat → Nat → Option Node → Prop where
  | single (only : Nat) : Inner graph [only] only none
  | several {rest : List Nat} (notSingle : rest.length ≠ 1) :
      Inner graph rest graph.size (some { shape := .seq rest })

structure Foldable (config : Config) (labels : List Nat) (graph : RegionGraph)
    (v m vertex : Nat) (head : Node) (outer inner : Cond × Nat × Nat) : Prop where
  head_node : graph.table v = some head
  head_kind : head.kind = .leaf ∨ head.kind = .seq
  outer_cond : graph.branchCond? v = some outer.1
  outer_branches : graph.branches v = [outer.2.1, outer.2.2]
  outer_notMany : graph.branchesManyWays config v = false
  outer_proper : outer.2.1 ≠ outer.2.2 ∧ outer.2.1 ≠ v ∧ outer.2.2 ≠ v
  isArm : m = outer.2.1 ∨ m = outer.2.2
  leaf : ∃ cond, graph.table m = some ⟨.leaf vertex, cond⟩
  onlyTests : config.onlyTests vertex = true
  alone : graph.entersAlone v m = true
  stays : graph.returns m = false
  notLabel : vertex ∉ labels
  inner_cond : graph.branchCond? m = some inner.1
  inner_branches : graph.branches m = [inner.2.1, inner.2.2]
  inner_notMany : graph.branchesManyWays config m = false
  inner_proper : inner.2.1 ≠ inner.2.2 ∧ inner.2.1 ≠ m ∧ inner.2.2 ≠ m

structure Switching (config : Config) (graph : RegionGraph) (v : Nat)
    (follow : Option Nat) (arms : List Nat) : Prop where
  many : graph.branchesManyWays config v = true
  some_exit : graph.exits v ≠ []
  not_self : v ∉ graph.exits v
  /-- The arms are the targets but the place where they meet. -/
  arms_eq : arms = (graph.exits v).filter fun d => !decide (follow = some d)
  arm_alone : ∀ d ∈ arms, graph.entersAlone v d = true
  arm_exits : ∀ d ∈ arms, ∀ e ∈ graph.exits d, e ≠ d ∧ e ≠ v ∧ follow = some e
  /-- The place where arms meet is a target or an exit of an arm. -/
  follow_edge : ∀ f, follow = some f →
    (f ∈ graph.exits v ∧ graph.entersAlone v f = false) ∨ ∃ d ∈ arms, f ∈ graph.exits d

/-- The collapses that rules find at a region. -/
inductive Matches (config : Config) (labels : List Nat) (graph : RegionGraph) (v : Nat) :
    Collapse → Prop where
  | forever (again : v ∈ graph.branches v) (only : ∀ d ∈ graph.branches v, d = v) :
      Matches config labels graph v
        { members := [v], entry := v, node := { shape := .selfLoop v }, out := []
          returns := graph.returns v }
  | selfLoop {other : Nat} {cond : Option Cond} (twoWay : TwoWay config graph v v other cond)
      (leaves : other ≠ v) :
      Matches config labels graph v
        { members := [v], entry := v, node := { shape := .selfLoop v, cond }, out := [other]
          returns := graph.returns v }
  | whileLoop {body follow : Nat} {cond : Option Cond}
      (loop : TopTested config graph v body follow cond) :
      Matches config labels graph v
        { members := [v, body], entry := v, node := { shape := .whileLoop v body, cond }
          out := [follow], returns := graph.returns v || graph.returns body }
  | forLoop {body follow init step inner : Nat} {nodes : List Nat} {part : Option Node}
      {cond : Option Cond} (loop : TopTested config graph v body follow cond)
      (counting : Counting config graph v body follow init step nodes)
      (isInner : Inner graph nodes.dropLast inner part) :
      Matches config labels graph v
        { members := [init, v, body], entry := init
          node := { shape := .forLoop init v inner step, cond }
          out := [follow], returns := graph.returns v || graph.returns body, part }
  | doWhile {latch follow : Nat} {cond : Option Cond}
      (exits : graph.exits v = [latch]) (proper : latch ≠ v)
      (alone : graph.entersAlone v latch = true)
      (twoWay : TwoWay config graph latch v follow cond) (leaves : follow ≠ v ∧ follow ≠ latch) :
      Matches config labels graph v
        { members := [v, latch], entry := v, node := { shape := .doWhile v latch, cond }
          out := [follow], returns := graph.returns v || graph.returns latch }
  | compound {m vertex first second : Nat} {head : Node} {folded : Cond}
      {outer inner : Cond × Nat × Nat}
      (foldable : Foldable config labels graph v m vertex head outer inner)
      (branch : foldedBranch? m outer inner = some (folded, first, second)) :
      Matches config labels graph v
        { members := [v, m], entry := v, node := { head with cond := some folded }
          out := [first, second], returns := graph.returns v }
  | sequence {next : Nat} (exits : graph.exits v = [next]) (proper : next ≠ v)
      (alone : graph.entersAlone v next = true) (ends : next ∉ graph.exits next) :
      Matches config labels graph v
        { members := [v, next], entry := v
          node := { shape := .seq (graph.sequenceParts v ++ graph.sequenceParts next) }
          out := graph.successors next, returns := graph.returns v }
  | ifElse {thenArm elseArm : Nat} {follow : List Nat}
      (notMany : graph.branchesManyWays config v = false)
      (branches : graph.branches v = [thenArm, elseArm])
      (proper : thenArm ≠ elseArm ∧ thenArm ≠ v ∧ elseArm ≠ v)
      (then_alone : graph.entersAlone v thenArm = true)
      (else_alone : graph.entersAlone v elseArm = true)
      (follow_eq : follow = (graph.exits thenArm ++ graph.exits elseArm).eraseDups)
      (atMostOne : follow.length ≤ 1)
      (outside : v ∉ follow ∧ thenArm ∉ follow ∧ elseArm ∉ follow) :
      Matches config labels graph v
        { members := [v, thenArm, elseArm], entry := v
          node := { shape := .ifElse v thenArm elseArm, cond := graph.branchCond? v }
          out := follow
          returns := graph.returns v || graph.returns thenArm || graph.returns elseArm }
  | ifThen {arm follow : Nat} {cond : Option Cond} (twoWay : TwoWay config graph v arm follow cond)
      (proper : arm ≠ follow ∧ arm ≠ v ∧ follow ≠ v)
      (alone : graph.entersAlone v arm = true)
      (exits : graph.exits arm = [] ∨ graph.exits arm = [follow]) :
      Matches config labels graph v
        { members := [v, arm], entry := v, node := { shape := .ifThen v arm, cond }
          out := [follow], returns := graph.returns v || graph.returns arm }
  | switch {follow : Option Nat} {arms : List Nat} {returns : Bool}
      (switching : Switching config graph v follow arms)
      (returns_iff : returns = true ↔ ∃ m ∈ v :: arms, graph.returns m = true) :
      Matches config labels graph v
        { members := v :: arms, entry := v
          node :=
            { shape := .switch v ((graph.branches v).eraseDups.map fun d =>
                { edges := positionsOf (graph.branches v) d
                  body := if follow = some d then none else some d : Arm Nat }) }
          out := follow.toList, returns }

/-! ## Two-way branches -/

theorem binaryBranch?_eq_some {whenTrue whenFalse : Nat}
    (found : graph.binaryBranch? config v = some (whenTrue, whenFalse)) :
    graph.branches v = [whenTrue, whenFalse] ∧ graph.branchesManyWays config v = false := by
  unfold binaryBranch? at found
  split at found
  · rename_i branches
    split at found
    · cases found
    · rename_i notMany
      cases found
      exact ⟨branches, by simpa using notMany⟩
  · cases found

theorem fork?_eq_some {whenTrue whenFalse : Nat}
    (found : graph.fork? config v = some (whenTrue, whenFalse)) :
    graph.branches v = [whenTrue, whenFalse] ∧ graph.branchesManyWays config v = false ∧
      whenTrue ≠ whenFalse ∧ whenTrue ≠ v ∧ whenFalse ≠ v := by
  unfold fork? at found
  split at found
  · rename_i binary
    split at found
    · cases found
    · rename_i proper
      cases found
      obtain ⟨branches, notMany⟩ := binaryBranch?_eq_some binary
      simp only [Bool.or_eq_true, decide_eq_true_eq, not_or] at proper
      exact ⟨branches, notMany, proper.1.1, proper.1.2, proper.2⟩
  · cases found

theorem fork?_of_branches {whenTrue whenFalse : Nat}
    (branches : graph.branches v = [whenTrue, whenFalse])
    (notMany : graph.branchesManyWays config v = false)
    (proper : whenTrue ≠ whenFalse ∧ whenTrue ≠ v ∧ whenFalse ≠ v) :
    graph.fork? config v = some (whenTrue, whenFalse) := by
  simp [fork?, binaryBranch?, branches, notMany, proper]

theorem TwoWay.mem_branches {taken other : Nat} {cond : Option Cond}
    (twoWay : TwoWay config graph v taken other cond) (d : Nat) :
    d ∈ graph.branches v ↔ d = taken ∨ d = other := by
  rcases twoWay.order with ⟨branches, _⟩ | ⟨branches, _⟩
  · rw [branches]
    simp
  · rw [branches]
    simp only [List.mem_cons, List.not_mem_nil, or_false]
    exact Or.comm

/-- The two ways round a fork. -/
theorem twoWay_of_ways {α : Type} {whenTrue whenFalse : Nat}
    {test : Nat × Nat × Option Cond → Option α} {result : α}
    (branches : graph.branches v = [whenTrue, whenFalse])
    (notMany : graph.branchesManyWays config v = false)
    (found : [(whenTrue, whenFalse, graph.branchCond? v),
      (whenFalse, whenTrue, (graph.branchCond? v).map Cond.negate)].findSome? test = some result) :
    ∃ taken other cond, TwoWay config graph v taken other cond ∧
      ((taken = whenTrue ∧ other = whenFalse) ∨ (taken = whenFalse ∧ other = whenTrue)) ∧
      test (taken, other, cond) = some result := by
  simp only [List.findSome?_cons] at found
  split at found
  · rename_i first
    cases found
    exact ⟨whenTrue, whenFalse, _, ⟨notMany, .inl ⟨branches, rfl⟩⟩, .inl ⟨rfl, rfl⟩, first⟩
  · split at found
    · rename_i second
      cases found
      exact ⟨whenFalse, whenTrue, _, ⟨notMany, .inr ⟨branches, rfl⟩⟩, .inr ⟨rfl, rfl⟩, second⟩
    · cases found

/-! ## Loops -/

theorem matches_selfLoop? (found : graph.selfLoop? config v = some collapse) :
    Matches config labels graph v collapse := by
  unfold selfLoop? at found
  dsimp only at found
  split at found
  · cases found
  rename_i again
  simp only [Bool.not_eq_true, Bool.not_eq_false', List.contains_eq_mem,
    decide_eq_true_eq] at again
  have mem_others (d : Nat) : d ∈ ((graph.branches v).filter (· != v)).eraseDups ↔
      d ∈ graph.branches v ∧ d ≠ v := by
    rw [List.mem_eraseDups, List.mem_filter, bne_iff_ne]
  split at found
  · rename_i noOthers
    rw [List.isEmpty_iff] at noOthers
    cases found
    rw [noOthers]
    refine .forever again fun d member => ?_
    by_contra different
    have := (mem_others d).mpr ⟨member, different⟩
    rw [noOthers] at this
    cases this
  · split at found
    · rename_i someOther twoWay
      simp only [Bool.and_eq_true, decide_eq_true_eq, Bool.not_eq_true'] at twoWay
      obtain ⟨⟨two, one⟩, notMany⟩ := twoWay
      obtain ⟨a, b, branches⟩ : ∃ a b, graph.branches v = [a, b] := List.length_eq_two.mp two
      obtain ⟨other, others⟩ := List.length_eq_one_iff.mp one
      have isOther := (mem_others other).mp (by rw [others]; simp)
      cases found
      rw [others]
      rw [branches] at again isOther ⊢
      simp only [List.head?_cons, Option.some.injEq]
      simp only [List.mem_cons, List.not_mem_nil, or_false] at again isOther
      by_cases first : a = v
      · subst first
        obtain rfl : other = b := isOther.1.resolve_left isOther.2
        rw [if_pos rfl]
        exact .selfLoop ⟨notMany, .inl ⟨branches, rfl⟩⟩ isOther.2
      · obtain rfl : v = b := again.resolve_left fun same => first same.symm
        obtain rfl : other = a := isOther.1.resolve_right isOther.2
        rw [if_neg first]
        exact .selfLoop ⟨notMany, .inr ⟨branches, rfl⟩⟩ isOther.2
    · cases found

theorem inner_of_rest (graph : RegionGraph) (rest : List Nat) :
    Inner graph rest
      (match rest with
        | [only] => ((only, none) : Nat × Option Node)
        | _ => (graph.size, some { shape := .seq rest })).1
      (match rest with
        | [only] => ((only, none) : Nat × Option Node)
        | _ => (graph.size, some { shape := .seq rest })).2 := by
  match rest with
  | [] => exact .several (by simp)
  | [only] => exact .single only
  | _ :: _ :: _ => exact .several (by simp)

theorem matches_forLoop? {body follow : Nat} {cond : Option Cond}
    (loop : TopTested config graph v body follow cond)
    (found : graph.forLoop? config ⟨v, body, follow, cond, graph.returns v || graph.returns body⟩ =
      some collapse) : Matches config labels graph v collapse := by
  unfold forLoop? at found
  dsimp only at found
  split at found
  · cases found
  rename_i headLeaf
  split at found
  · rename_i rest step init body' initial
    cases found
    unfold steppedBody? at body'
    split at body'
    · rename_i nodes bodyCond shape
      split at body'
      · cases body'
      · rename_i last lastStep
        dsimp only at body'
        split at body'
        · rename_i several
          cases body'
          simp only [Bool.and_eq_true, decide_eq_true_eq] at several
          unfold initializer? at initial
          dsimp only at initial
          split at initial
          · rename_i only entrants
            split at initial
            · rename_i checks
              cases initial
              simp only [Bool.and_eq_true, bne_iff_ne, beq_iff_eq] at checks
              obtain ⟨⟨⟨notRoot, notFollow⟩, initLeaf⟩, successors⟩ := checks
              exact .forLoop loop
                { head_leaf := by simpa using headLeaf
                  body_parts := ⟨_, shape⟩
                  several := several.1
                  step_last := lastStep
                  init_only := entrants
                  init_ne_root := notRoot
                  init_ne_follow := notFollow
                  init_leaf := initLeaf
                  init_successors := successors } (inner_of_rest graph nodes.dropLast)
            · cases initial
          · cases initial
        · cases body'
    · cases body'
  · cases found

theorem matches_whileLoop? (found : graph.whileLoop? config v = some collapse) :
    Matches config labels graph v collapse := by
  unfold whileLoop? at found
  split at found
  · cases found
  · rename_i whenTrue whenFalse fork
    obtain ⟨branches, notMany, different, trueProper, falseProper⟩ := fork?_eq_some fork
    obtain ⟨body, follow, cond, twoWay, ways, found⟩ := twoWay_of_ways branches notMany found
    dsimp only at found
    split at found
    · rename_i checks
      simp only [Bool.and_eq_true, beq_iff_eq] at checks
      have loop : TopTested config graph v body follow cond := by
        rcases ways with ⟨rfl, rfl⟩ | ⟨rfl, rfl⟩
        · exact ⟨twoWay, different, trueProper, falseProper, checks.1, checks.2⟩
        · exact ⟨twoWay, different.symm, falseProper, trueProper, checks.1, checks.2⟩
      cases counted : (if config.forLoops then graph.forLoop? config
          ⟨v, body, follow, cond, graph.returns v || graph.returns body⟩ else none) with
      | none =>
          rw [counted] at found
          cases found
          exact .whileLoop loop
      | some counting =>
          rw [counted] at found
          cases found
          split at counted
          · exact matches_forLoop? loop counted
          · cases counted
    · cases found

theorem matches_doWhile? (found : graph.doWhile? config v = some collapse) :
    Matches config labels graph v collapse := by
  unfold doWhile? at found
  split at found
  · rename_i latch exits
    dsimp only at found
    split at found
    · cases found
    rename_i proper
    simp only [Bool.or_eq_true, decide_eq_true_eq, Bool.not_eq_true', not_or,
      Bool.not_eq_false] at proper
    split at found
    · cases found
    · rename_i whenTrue whenFalse binary
      obtain ⟨branches, notMany⟩ := binaryBranch?_eq_some binary
      split at found
      · rename_i way
        simp only [Bool.and_eq_true, decide_eq_true_eq, bne_iff_ne] at way
        obtain ⟨⟨rfl, notBody⟩, notLatch⟩ := way
        cases found
        exact .doWhile exits proper.1 proper.2 ⟨notMany, .inl ⟨branches, rfl⟩⟩
          ⟨notBody, notLatch⟩
      · split at found
        · rename_i way
          simp only [Bool.and_eq_true, decide_eq_true_eq, bne_iff_ne] at way
          obtain ⟨⟨rfl, notBody⟩, notLatch⟩ := way
          cases found
          exact .doWhile exits proper.1 proper.2 ⟨notMany, .inr ⟨branches, rfl⟩⟩
            ⟨notBody, notLatch⟩
        · cases found
  · cases found

theorem matches_cyclic? (found : graph.cyclic? config v = some collapse) :
    Matches config labels graph v collapse := by
  unfold cyclic? at found
  rw [List.findSome?_eq_some_iff] at found
  obtain ⟨_, rule, _, rules, found, _⟩ := found
  have isRule : rule ∈ [selfLoop?, whileLoop?, doWhile?] := by rw [rules]; simp
  simp only [List.mem_cons, List.not_mem_nil, or_false] at isRule
  rcases isRule with rfl | rfl | rfl
  · exact matches_selfLoop? found
  · exact matches_whileLoop? found
  · exact matches_doWhile? found

/-! ## Acyclic regions -/

/-- What is checked of a region before it is folded into the branch of `v`. -/
theorem isFoldable_iff {m : Nat} : isFoldable config labels graph v m = true ↔
    ∃ vertex, (∃ cond, graph.table m = some ⟨.leaf vertex, cond⟩) ∧
      config.onlyTests vertex = true ∧ graph.entersAlone v m = true ∧
      graph.returns m = false ∧ vertex ∉ labels := by
  unfold isFoldable
  constructor
  · intro foldable
    split at foldable
    · cases foldable
    · rename_i vertex leaf
      simp only [Bool.and_eq_true, Bool.not_eq_true', List.contains_eq_mem,
        decide_eq_false_iff_not] at foldable
      obtain ⟨⟨⟨onlyTests, alone⟩, stays⟩, notLabel⟩ := foldable
      obtain ⟨node, found, isLeaf⟩ := Option.bind_eq_some_iff.mp leaf
      obtain ⟨cond, rfl⟩ := Node.exists_leaf_of_leafVertex? isLeaf
      exact ⟨vertex, ⟨cond, found⟩, onlyTests, alone, stays, notLabel⟩
  · rintro ⟨vertex, ⟨cond, found⟩, onlyTests, alone, stays, notLabel⟩
    have leaf : (graph.table m).bind Node.leafVertex? = some vertex := by
      rw [found]
      rfl
    simp [leaf, onlyTests, alone, stays, notLabel]

theorem matches_compound? (found : graph.compound? config labels v = some collapse) :
    Matches config labels graph v collapse := by
  unfold compound? at found
  split at found
  · rename_i head whenTrue whenFalse cond node fork outerCond
    split at found
    · cases found
    rename_i kind
    obtain ⟨branches, notMany, proper⟩ := fork?_eq_some fork
    rw [List.findSome?_eq_some_iff] at found
    obtain ⟨_, m, _, arms, found, _⟩ := found
    have isArm : m ∈ [whenTrue, whenFalse] := by rw [arms]; simp
    simp only [List.mem_cons, List.not_mem_nil, or_false] at isArm
    split at found
    · cases found
    rename_i foldable
    split at found
    · rename_i innerTrue innerFalse test innerFork innerCond
      obtain ⟨innerBranches, innerNotMany, innerProper⟩ := fork?_eq_some innerFork
      split at found
      · rename_i folded first second branch
        cases found
        simp only [Bool.not_eq_true', Bool.not_eq_false] at foldable
        obtain ⟨vertex, isLeaf, onlyTests, alone, stays, notLabel⟩ := isFoldable_iff.mp foldable
        refine .compound
          { head_node := node
            head_kind := ?_
            outer_cond := outerCond
            outer_branches := branches
            outer_notMany := notMany
            outer_proper := proper
            isArm := isArm
            leaf := isLeaf
            onlyTests := onlyTests
            alone := alone
            stays := stays
            notLabel := notLabel
            inner_cond := innerCond
            inner_branches := innerBranches
            inner_notMany := innerNotMany
            inner_proper := innerProper } branch
        simp only [Bool.and_eq_true, bne_iff_ne, not_and, not_not] at kind
        by_cases headIsLeaf : head.kind = .leaf
        · exact .inl headIsLeaf
        · exact .inr (kind headIsLeaf)
      · cases found
    · cases found
  · cases found

theorem matches_sequence? (found : graph.sequence? config v = some collapse) :
    Matches config labels graph v collapse := by
  unfold sequence? at found
  split at found
  · rename_i next exits
    split at found
    · cases found
    · rename_i checks
      cases found
      simp only [Bool.or_eq_true, decide_eq_true_eq, Bool.not_eq_true', not_or,
        Bool.not_eq_false, List.contains_eq_mem] at checks
      exact .sequence exits checks.1.1 checks.1.2 checks.2
  · cases found

theorem matches_ifElse? (found : graph.ifElse? config v = some collapse) :
    Matches config labels graph v collapse := by
  unfold ifElse? at found
  split at found
  · cases found
  · rename_i thenArm elseArm fork
    obtain ⟨branches, notMany, proper⟩ := fork?_eq_some fork
    dsimp only at found
    split at found
    · cases found
    rename_i alone
    simp only [Bool.or_eq_true, Bool.not_eq_true', not_or, Bool.not_eq_false] at alone
    split at found
    · cases found
    rename_i meet
    simp only [Bool.or_eq_true, decide_eq_true_eq, not_or, Nat.not_lt, List.any_cons,
      List.any_nil, Bool.or_false, List.contains_eq_mem] at meet
    cases found
    exact .ifElse notMany branches proper alone.1 alone.2 rfl meet.1 meet.2

theorem matches_ifThen? (found : graph.ifThen? config v = some collapse) :
    Matches config labels graph v collapse := by
  unfold ifThen? at found
  split at found
  · cases found
  · rename_i whenTrue whenFalse fork
    obtain ⟨branches, notMany, different, trueProper, falseProper⟩ := fork?_eq_some fork
    obtain ⟨arm, follow, cond, twoWay, ways, found⟩ := twoWay_of_ways branches notMany found
    dsimp only at found
    split at found
    · rename_i checks
      cases found
      simp only [Bool.and_eq_true, Bool.or_eq_true, List.isEmpty_iff, beq_iff_eq] at checks
      rcases ways with ⟨rfl, rfl⟩ | ⟨rfl, rfl⟩
      · exact .ifThen twoWay ⟨different, trueProper, falseProper⟩ checks.1 checks.2
      · exact .ifThen twoWay ⟨different.symm, falseProper, trueProper⟩ checks.1 checks.2
    · cases found

/-! ## Switches -/

/-- The exits of an arm agree on the place where arms meet. -/
theorem foldlM_meet? {n d : Nat} {exits : List Nat} {before after : Option Nat}
    (found : exits.foldlM (SwitchScan.meet? n d) before = some after) :
    (∀ e ∈ exits, e ≠ d ∧ e ≠ n ∧ after = some e) ∧
      (∀ f, before = some f → after = some f) ∧
      (∀ f, after = some f → before = some f ∨ f ∈ exits) := by
  induction exits generalizing before with
  | nil =>
      rw [List.foldlM_nil] at found
      cases found
      exact ⟨by simp, fun f same => same, fun f same => .inl same⟩
  | cons e rest inductionHypothesis =>
      rw [List.foldlM_cons, Option.bind_eq_bind, Option.bind_eq_some_iff] at found
      obtain ⟨place, met, found⟩ := found
      obtain ⟨agree, kept, origin⟩ := inductionHypothesis found
      unfold SwitchScan.meet? at met
      split at met
      · cases met
      rename_i proper
      simp only [Bool.or_eq_true, decide_eq_true_eq, not_or] at proper
      have placed : place = some e ∧ (before = none ∨ before = some e) := by
        split at met
        · cases met
          exact ⟨rfl, .inl rfl⟩
        · split at met
          · rename_i same
            cases met
            rw [same]
            exact ⟨rfl, .inr rfl⟩
          · cases met
      have isPlace := kept e placed.1
      refine ⟨?_, ?_, ?_⟩
      · intro x member
        rcases List.mem_cons.mp member with rfl | later
        · exact ⟨proper.1, proper.2, isPlace⟩
        · exact agree x later
      · intro f same
        rcases placed.2 with none | some
        · rw [none] at same
          cases same
        · rw [some] at same
          cases same
          exact isPlace
      · intro f same
        rw [isPlace] at same
        cases same
        exact .inr List.mem_cons_self

/-- A scan has taken in some arms of the switch at `n`, which lead to the place
where they meet and nowhere else. -/
structure TookIn (graph : RegionGraph) (n : Nat) (arms : List Nat) (before after : SwitchScan) :
    Prop where
  kept : ∀ f, before.follow = some f → after.follow = some f
  members : after.members = before.members ++ arms
  agree : ∀ d ∈ arms, ∀ e ∈ graph.exits d, e ≠ d ∧ e ≠ n ∧ after.follow = some e
  origin : ∀ f, after.follow = some f →
    before.follow = some f ∨ ∃ d ∈ arms, f ∈ graph.exits d
  returns_iff : after.returns = true ↔
    before.returns = true ∨ ∃ d ∈ arms, graph.returns d = true

namespace TookIn

variable {n d : Nat} {before between after : SwitchScan}

theorem refl (scan : SwitchScan) : TookIn graph n [] scan scan where
  kept _ same := same
  members := by simp
  agree := by simp
  origin _ same := .inl same
  returns_iff := by simp

theorem trans {first second : List Nat} (took : TookIn graph n first before between)
    (took' : TookIn graph n second between after) :
    TookIn graph n (first ++ second) before after where
  kept f same := took'.kept f (took.kept f same)
  members := by rw [took'.members, took.members, List.append_assoc]
  agree := by
    intro d isArm e isExit
    rcases List.mem_append.mp isArm with early | late
    · obtain ⟨notArm, notHead, place⟩ := took.agree d early e isExit
      exact ⟨notArm, notHead, took'.kept e place⟩
    · exact took'.agree d late e isExit
  origin := by
    intro f same
    rcases took'.origin f same with early | ⟨d, isArm, isExit⟩
    · rcases took.origin f early with start | ⟨d, isArm, isExit⟩
      · exact .inl start
      · exact .inr ⟨d, List.mem_append_left _ isArm, isExit⟩
    · exact .inr ⟨d, List.mem_append_right _ isArm, isExit⟩
  returns_iff := by
    rw [took'.returns_iff, took.returns_iff, or_assoc]
    simp only [List.mem_append, or_and_right, exists_or]

/-- One target is the place where arms meet, or it is taken in as an arm. -/
theorem of_take? (taken : SwitchScan.take? graph n before d = some after) :
    (before.follow = some d ∧ after = before) ∨
      (before.follow ≠ some d ∧ TookIn graph n [d] before after) := by
  unfold SwitchScan.take? at taken
  split at taken
  · rename_i isFollow
    exact .inl ⟨isFollow, (Option.some.inj taken).symm⟩
  · rename_i notFollow
    split at taken
    · cases taken
    · rename_i follow met
      cases taken
      obtain ⟨agree, kept, origin⟩ := foldlM_meet? met
      exact .inr ⟨notFollow,
        { kept
          members := rfl
          agree := by simpa using agree
          origin := by simpa using origin
          returns_iff := by simp }⟩

/-- Taking in targets one after the other, when a target that another one leads
to is known to be the place where they meet. -/
theorem of_foldlM_take? {targets : List Nat}
    (found : targets.foldlM (SwitchScan.take? graph n) before = some after)
    (meets : ∀ d ∈ targets, ∀ d' ∈ targets, d' ∈ graph.exits d → before.follow = some d') :
    TookIn graph n (targets.filter fun d => !decide (after.follow = some d)) before after := by
  induction targets generalizing before with
  | nil =>
      rw [List.foldlM_nil] at found
      cases found
      exact .refl _
  | cons d rest inductionHypothesis =>
      rw [List.foldlM_cons, Option.bind_eq_bind, Option.bind_eq_some_iff] at found
      obtain ⟨scan, taken, found⟩ := found
      have meetsRest (x : Nat) (xMember : x ∈ rest) (y : Nat) (yMember : y ∈ d :: rest)
          (leads : y ∈ graph.exits x) : before.follow = some y :=
        meets x (List.mem_cons_of_mem _ xMember) y yMember leads
      rcases of_take? taken with ⟨isFollow, same⟩ | ⟨notFollow, took⟩
      · rw [same] at found
        have took := inductionHypothesis found fun x xMember y yMember =>
          meetsRest x xMember y (List.mem_cons_of_mem _ yMember)
        rwa [List.filter_cons_of_neg (by simpa using took.kept d isFollow)]
      · have took' := inductionHypothesis found fun x xMember y yMember leads =>
          took.kept y (meetsRest x xMember y (List.mem_cons_of_mem _ yMember) leads)
        -- An arm is not the place where arms meet: nothing else leads to it.
        have staysArm : after.follow ≠ some d := by
          intro isFollow
          rcases took'.origin d isFollow with early | ⟨x, isArm, leads⟩
          · rcases took.origin d early with start | ⟨d', isSelf, leads⟩
            · exact notFollow start
            · rw [List.mem_singleton.mp isSelf] at leads
              exact (took.agree d (List.mem_singleton_self d) d leads).1 rfl
          · exact notFollow (meetsRest x (List.mem_of_mem_filter isArm) d List.mem_cons_self leads)
        rw [List.filter_cons_of_pos (by simpa using staysArm)]
        exact took.trans took'

end TookIn

theorem matches_switch? (wellFormed : graph.WellFormed)
    (found : graph.switch? config v = some collapse) : Matches config labels graph v collapse := by
  unfold switch? at found
  dsimp only at found
  split at found
  · cases found
  rename_i checks
  simp only [Bool.or_eq_true, Bool.not_eq_true', decide_eq_true_eq, not_or, Bool.not_eq_false,
    List.isEmpty_iff, List.contains_eq_mem, Nat.not_lt] at checks
  obtain ⟨⟨⟨many, someExit⟩, notSelf⟩, atMostOne⟩ := checks
  split at found
  · cases found
  rename_i scan scanned
  cases found
  have alone_iff (d : Nat) (member : d ∈ (graph.branches v).eraseDups) :
      graph.entersAlone v d = true ∨
        d ∈ (graph.branches v).eraseDups.filter (fun d => !graph.entersAlone v d) := by
    cases alone : graph.entersAlone v d with
    | true => exact .inl rfl
    | false => exact .inr (List.mem_filter.mpr ⟨member, by simp [alone]⟩)
  have shared_head {d : Nat}
      (shared : d ∈ (graph.branches v).eraseDups.filter (fun d => !graph.entersAlone v d)) :
      ((graph.branches v).eraseDups.filter (fun d => !graph.entersAlone v d)).head? = some d := by
    revert shared atMostOne
    generalize (graph.branches v).eraseDups.filter (fun d => !graph.entersAlone v d) = shared
    intro atMostOne member
    match shared, atMostOne, member with
    | [only], _, member => rw [List.mem_singleton.mp member]; rfl
  have meets (d : Nat) (dMember : d ∈ (graph.branches v).eraseDups) (d' : Nat)
      (dMember' : d' ∈ (graph.branches v).eraseDups) (leads : d' ∈ graph.exits d) :
      ((graph.branches v).eraseDups.filter (fun d => !graph.entersAlone v d)).head? = some d' := by
    rcases alone_iff d' dMember' with alone | shared
    · have same := ((entersAlone_iff wellFormed.consistent).mp alone).2 d (mem_exits.mp leads).1
      exact absurd (same ▸ dMember) notSelf
    · exact shared_head shared
  obtain ⟨kept, members, agree, origin, returns_iff⟩ := TookIn.of_foldlM_take? scanned meets
  dsimp only at kept members origin returns_iff
  rw [members, List.singleton_append]
  refine .switch
    { many := many
      some_exit := someExit
      not_self := notSelf
      arms_eq := rfl
      arm_alone := ?_
      arm_exits := agree
      follow_edge := ?_ } ?_
  · intro d member
    obtain ⟨isExit, notFollow⟩ := List.mem_filter.mp member
    rcases alone_iff d isExit with alone | shared
    · exact alone
    · simp [kept d (shared_head shared)] at notFollow
  · intro f isFollow
    rcases origin f isFollow with isShared | arm
    · have member := List.mem_of_mem_head? isShared
      rw [List.mem_filter] at member
      exact .inl ⟨member.1, by simpa using member.2⟩
    · exact .inr arm
  · simp only [List.mem_cons, exists_eq_or_imp]
    exact returns_iff

theorem matches_acyclic? (wellFormed : graph.WellFormed)
    (found : graph.acyclic? config v = some collapse) : Matches config labels graph v collapse := by
  unfold acyclic? at found
  rw [List.findSome?_eq_some_iff] at found
  obtain ⟨_, rule, _, rules, found, _⟩ := found
  have isRule : rule ∈ [sequence?, ifElse?, ifThen?, switch?] := by rw [rules]; simp
  simp only [List.mem_cons, List.not_mem_nil, or_false] at isRule
  rcases isRule with rfl | rfl | rfl | rfl
  · exact matches_sequence? found
  · exact matches_ifElse? found
  · exact matches_ifThen? found
  · exact matches_switch? wellFormed found

end FlowRegions.RegionGraph
