import FlowRegions.Proofs.Structuring.Rules

/-!
Contract: every collapse that a rule matches fits the graph.

Each rule has checked just enough for that: its members are entered at the
entry only, and the new vertex leads exactly where they lead.
-/

namespace FlowRegions.RegionGraph

open FlowRegions.Digraph (root terminator)

variable {config : Config} {labels : List Nat} {graph : RegionGraph} {v : Nat}
  {collapse : Collapse}

/-! ## Facts about the parts -/

theorem TwoWay.mem_exits {taken other : Nat} {cond : Option Cond}
    (twoWay : TwoWay config graph v taken other cond) (d : Nat) :
    d ∈ graph.exits v ↔ d = taken ∨ d = other := by
  rw [exits, List.mem_eraseDups, twoWay.mem_branches]

theorem mem_exits_of_eq {v d : Nat} (exits : graph.exits v = [d]) {x : Nat} :
    x ∈ graph.exits v ↔ x = d := by
  rw [exits, List.mem_singleton]

/-- The regions a region contributes to a sequence are itself or earlier ones. -/
theorem sequenceParts_le (wellFormed : graph.WellFormed) {r : Nat}
    (member : r ∈ graph.sequenceParts v) : r ≤ v := by
  unfold sequenceParts at member
  split at member
  · rename_i nodes found
    exact Nat.le_of_lt (wellFormed.nested.below found r member)
  · exact Nat.le_of_eq (List.mem_singleton.mp member)

theorem sequenceParts_ne_nil (wellFormed : graph.WellFormed) (v : Nat) :
    graph.sequenceParts v ≠ [] := by
  unfold sequenceParts
  split
  · rename_i nodes found
    exact wellFormed.nested.parts found
  · simp

theorem Inner.below {rest : List Nat} {inner : Nat} {part : Option Node}
    (isInner : Inner graph rest inner part) (below : ∀ r ∈ rest, r < graph.size) :
    inner < graph.size ∨ (inner = graph.size ∧ part.isSome = true) := by
  cases isInner with
  | single => exact .inl (below inner (by simp))
  | several => exact .inr ⟨rfl, rfl⟩

theorem Inner.part_shape {rest : List Nat} {inner : Nat} {part : Option Node}
    (isInner : Inner graph rest inner part) (nonempty : rest ≠ [])
    (below : ∀ r ∈ rest, r < graph.size) (node : Node) (isPart : part = some node) :
    ∃ nodes, node = { shape := .seq nodes } ∧ nodes ≠ [] ∧ ∀ r ∈ nodes, r < graph.size := by
  cases isInner with
  | single => cases isPart
  | several =>
      cases isPart
      exact ⟨rest, rfl, nonempty, below⟩

namespace Counting

variable {head body follow init step : Nat} {nodes : List Nat} {cond : Option Cond}
  (counting : Counting config graph head body follow init step nodes)
include counting

theorem mem_successors_init {d : Nat} : d ∈ graph.successors init ↔ d = head := by
  rw [counting.init_successors, List.mem_singleton]

/-- The head is entered from the initialization and the body. -/
theorem eq_init_of_enters (consistent : graph.Consistent) {p : Nat}
    (edge : head ∈ graph.successors p) (notBody : p ≠ body) : p = init := by
  have enters : p ∈ (graph.entrants head).filter (· != body) :=
    List.mem_filter.mpr ⟨(mem_entrants consistent).mpr edge, bne_iff_ne.mpr notBody⟩
  rwa [counting.init_only, List.mem_singleton] at enters

theorem init_ne_body : init ≠ body := by
  have only : init ∈ (graph.entrants head).filter (· != body) := by
    rw [counting.init_only]
    exact List.mem_singleton_self init
  exact bne_iff_ne.mp (List.mem_filter.mp only).2

theorem init_ne_head (loop : TopTested config graph head body follow cond) : init ≠ head := by
  rintro rfl
  have isFollow := (loop.twoWay.mem_branches follow).mpr (.inr rfl)
  exact loop.follow_ne_head (counting.mem_successors_init.mp (mem_branches.mp isFollow).1)

theorem init_isLive (wellFormed : graph.WellFormed) : graph.isLive init = true :=
  (wellFormed.ends (counting.mem_successors_init.mpr rfl)).1.resolve_left counting.init_ne_root

/-- The parts of the body are regions. -/
theorem nodes_lt_size (wellFormed : graph.WellFormed) {r : Nat} (member : r ∈ nodes) :
    r < graph.size := by
  obtain ⟨bodyCond, bodyNode⟩ := counting.body_parts
  exact Nat.lt_trans (wellFormed.nested.below bodyNode r member) (lt_size_of_table bodyNode)

/-- The body does something before the step. -/
theorem dropLast_ne_nil : nodes.dropLast ≠ [] := by
  have several := counting.several
  rw [← List.length_pos_iff, List.length_dropLast]
  omega

end Counting

/-- Folding keeps the branch of `v` that does not lead to `m` and the branch of
`m` that does not lead there as well. -/
theorem foldedBranch?_cases {m first second : Nat} {folded : Cond}
    {outer inner : Cond × Nat × Nat}
    (branch : foldedBranch? m outer inner = some (folded, first, second)) :
    (m = outer.2.1 ∧ inner.2.2 = outer.2.2 ∧ folded = .and outer.1 inner.1 ∧
        first = inner.2.1 ∧ second = outer.2.2) ∨
      (m = outer.2.1 ∧ inner.2.1 = outer.2.2 ∧ folded = .and outer.1 inner.1.negate ∧
        first = inner.2.2 ∧ second = outer.2.2) ∨
      (m = outer.2.2 ∧ inner.2.1 = outer.2.1 ∧ folded = .or outer.1 inner.1 ∧
        first = outer.2.1 ∧ second = inner.2.2) ∨
      (m = outer.2.2 ∧ inner.2.2 = outer.2.1 ∧ folded = .or outer.1 inner.1.negate ∧
        first = outer.2.1 ∧ second = inner.2.1) := by
  obtain ⟨outerCond, whenTrue, whenFalse⟩ := outer
  obtain ⟨innerCond, innerTrue, innerFalse⟩ := inner
  unfold foldedBranch? at branch
  simp only [Bool.and_eq_true, decide_eq_true_eq] at branch
  split at branch
  · rename_i both
    cases branch
    exact .inl ⟨both.1, both.2, rfl, rfl, rfl⟩
  split at branch
  · rename_i both
    cases branch
    exact .inr (.inl ⟨both.1, both.2, rfl, rfl, rfl⟩)
  split at branch
  · rename_i both
    cases branch
    exact .inr (.inr (.inl ⟨both.1, both.2, rfl, rfl, rfl⟩))
  split at branch
  · rename_i both
    cases branch
    exact .inr (.inr (.inr ⟨both.1, both.2, rfl, rfl, rfl⟩))
  · cases branch

/-! ## A head and its arms -/

/-- Regions that are entered from `v` only are entered from `v`, whatever else is
among the members. -/
theorem mem_of_enters_arm (consistent : graph.Consistent) {arms : List Nat}
    (alone : ∀ d ∈ arms, graph.entersAlone v d = true) {p m : Nat} (member : m ∈ v :: arms)
    (notHead : m ≠ v) (edge : m ∈ graph.successors p) : p ∈ v :: arms := by
  have isArm := (List.mem_cons.mp member).resolve_left notHead
  rw [((entersAlone_iff consistent).mp (alone m isArm)).2 p edge]
  exact List.mem_cons_self

section

variable (wellFormed : graph.WellFormed) (live : graph.isLive v = true)
include wellFormed live

/-- A head with arms that are entered from it only may be replaced by a region
that leads where they lead. -/
private theorem fits_arms {arms out : List Nat} {node : Node} {returns : Bool}
    (some_exit : graph.exits v ≠ [])
    (arm : ∀ d ∈ arms, d ∈ graph.exits v ∧ graph.entersAlone v d = true)
    (leaves : ∀ t ∈ out, t ∉ arms ∧ ∃ m ∈ v :: arms, t ∈ graph.exits m)
    (covers : ∀ m ∈ v :: arms, ∀ t ∈ graph.exits m, t ∈ v :: arms ∨ t ∈ out)
    (returns_iff : returns = true ↔ ∃ m ∈ v :: arms, graph.returns m = true)
    (node_kind : node.kind ≠ .jump) (node_below : ∀ r ∈ node.references, r < graph.size)
    (node_parts : ∀ {nodes}, node.shape = .seq nodes → nodes ≠ []) :
    graph.Fits { members := v :: arms, entry := v, node, out, returns } where
  entry_mem := List.mem_cons_self
  live := by
    intro m member
    rcases List.mem_cons.mp member with rfl | isArm
    · exact live
    · exact wellFormed.isLive_of_mem_exits (arm m isArm).1
  single := mem_of_enters_arm wellFormed.consistent fun d isArm => (arm d isArm).2
  out_edge := by
    intro t isOut
    obtain ⟨m, member, exit⟩ := (leaves t isOut).2
    exact ⟨m, member, (mem_exits.mp exit).1⟩
  out_entry := fun t isOut member => (List.mem_cons.mp member).resolve_right (leaves t isOut).1
  covers := covers
  returns_iff := by
    have notEnd : terminator ∉ out := fun isOut => by
      obtain ⟨_, m, _, exit⟩ := leaves terminator isOut
      exact (mem_exits.mp exit).2 rfl
    rw [or_iff_right notEnd]
    exact returns_iff
  entry_branches := exits_eq_nil_iff.ne.mp some_exit
  node_kind := node_kind
  node_below := fun r refers => .inl (node_below r refers)
  node_parts := node_parts
  part_shape := by simp

/-! ## Loops -/

private theorem fits_forever (again : v ∈ graph.branches v)
    (only : ∀ d ∈ graph.branches v, d = v) :
    graph.Fits
      { members := [v], entry := v, node := { shape := .selfLoop v }, out := []
        returns := graph.returns v } := by
  refine fits_arms wellFormed live (List.ne_nil_of_mem (List.mem_eraseDups.mpr again)) (by simp)
    (by simp) ?_ (by simp) (by simp [Node.kind, Shape.kind])
    (by simp [Node.references, Shape.children, Digraph.lt_size_of_isLive live]) (by simp)
  intro m member t exit
  obtain rfl := List.mem_singleton.mp member
  rw [only t (List.mem_eraseDups.mp exit)]
  exact .inl member

private theorem fits_selfLoop {other : Nat} {cond : Option Cond}
    (twoWay : TwoWay config graph v v other cond) :
    graph.Fits
      { members := [v], entry := v, node := { shape := .selfLoop v, cond }, out := [other]
        returns := graph.returns v } := by
  have toOther := (twoWay.mem_exits other).mpr (.inr rfl)
  refine fits_arms wellFormed live (List.ne_nil_of_mem toOther) (by simp) (by simpa using toOther)
    ?_ (by simp) (by simp [Node.kind, Shape.kind])
    (by simp [Node.references, Shape.children, Digraph.lt_size_of_isLive live]) (by simp)
  intro m member t exit
  obtain rfl := List.mem_singleton.mp member
  rcases (twoWay.mem_exits t).mp exit with rfl | rfl
  · exact .inl member
  · exact .inr (by simp)

private theorem fits_whileLoop {body follow : Nat} {cond : Option Cond}
    (loop : TopTested config graph v body follow cond) :
    graph.Fits
      { members := [v, body], entry := v, node := { shape := .whileLoop v body, cond }
        out := [follow], returns := graph.returns v || graph.returns body } := by
  have toBody := (loop.twoWay.mem_exits body).mpr (.inl rfl)
  have toFollow := (loop.twoWay.mem_exits follow).mpr (.inr rfl)
  have below := Digraph.lt_size_of_isLive live
  have bodyBelow := Digraph.lt_size_of_isLive (wellFormed.isLive_of_mem_exits toBody)
  refine fits_arms wellFormed live (List.ne_nil_of_mem toBody)
    (by simpa using ⟨toBody, loop.body_alone⟩)
    (by simpa using ⟨loop.body_ne_follow.symm, .inl toFollow⟩) ?_ (by simp)
    (by simp [Node.kind, Shape.kind]) (by simp [Node.references, Shape.children, below, bodyBelow])
    (by simp)
  intro m member t exit
  simp only [List.mem_cons, List.not_mem_nil, or_false] at member ⊢
  rcases member with rfl | rfl
  · exact ((loop.twoWay.mem_exits t).mp exit).imp_left .inr
  · exact .inl (.inl ((mem_exits_of_eq loop.body_exits).mp exit))

private theorem fits_forLoop {body follow init step inner : Nat} {nodes : List Nat}
    {part : Option Node} {cond : Option Cond}
    (loop : TopTested config graph v body follow cond)
    (counting : Counting config graph v body follow init step nodes)
    (isInner : Inner graph nodes.dropLast inner part) :
    graph.Fits
      { members := [init, v, body], entry := init
        node := { shape := .forLoop init v inner step, cond }
        out := [follow], returns := graph.returns v || graph.returns body, part } := by
  have toFollow := (loop.twoWay.mem_branches follow).mpr (.inr rfl)
  have bodyLive := wellFormed.isLive_of_mem_branches
    ((loop.twoWay.mem_branches body).mpr (.inl rfl))
  have followLive := wellFormed.isLive_of_mem_branches toFollow
  have initLive := counting.init_isLive wellFormed
  have initBranches : graph.branches init = [v] := by
    rw [branches, counting.init_successors]
    simp [wellFormed.ne_terminator_of_isLive live]
  have initStays : graph.returns init = false := by
    simp [returns, Digraph.hasEdge, counting.init_successors,
      (wellFormed.ne_terminator_of_isLive live).symm]
  have restBelow (r : Nat) (member : r ∈ nodes.dropLast) : r < graph.size :=
    counting.nodes_lt_size wellFormed (List.dropLast_subset nodes member)
  refine
    { entry_mem := by simp
      live := by simp [live, bodyLive, initLive]
      single := ?_
      out_edge := by simpa using .inr (.inl (mem_branches.mp toFollow).1)
      out_entry := ?_
      covers := ?_
      returns_iff := ?_
      entry_branches := by simp [initBranches]
      node_kind := by simp [Node.kind, Shape.kind]
      node_below := ?_
      node_parts := by simp
      part_shape := isInner.part_shape counting.dropLast_ne_nil restBelow }
  · intro p m member notEntry edge
    simp only [List.mem_cons, List.not_mem_nil, or_false] at member ⊢
    rcases member.resolve_left notEntry with rfl | rfl
    · by_cases isBody : p = body
      · exact .inr (.inr isBody)
      · exact .inl (counting.eq_init_of_enters wellFormed.consistent edge isBody)
    · have alone := (entersAlone_iff wellFormed.consistent).mp loop.body_alone
      exact .inr (.inl (alone.2 p edge))
  · intro t isOut member
    obtain rfl := List.mem_singleton.mp isOut
    simp [loop.follow_ne_head, loop.body_ne_follow.symm, counting.init_ne_follow.symm] at member
  · intro m member t exit
    simp only [List.mem_cons, List.not_mem_nil, or_false] at member ⊢
    rcases member with rfl | rfl | rfl
    · rw [exits, List.mem_eraseDups, initBranches, List.mem_singleton] at exit
      exact .inl (.inr (.inl exit))
    · exact ((loop.twoWay.mem_exits t).mp exit).imp_left fun same => .inr (.inr same)
    · exact .inl (.inr (.inl ((mem_exits_of_eq loop.body_exits).mp exit)))
  · have notEnd := wellFormed.ne_terminator_of_isLive followLive
    simp [notEnd.symm, initStays]
  · intro r refers
    simp only [Node.references, Shape.children, List.mem_cons, List.not_mem_nil,
      or_false] at refers
    rcases refers with rfl | rfl | rfl | rfl
    · exact .inl (Digraph.lt_size_of_isLive initLive)
    · exact .inl (Digraph.lt_size_of_isLive live)
    · exact isInner.below restBelow
    · exact .inl (counting.nodes_lt_size wellFormed (List.mem_of_getLast? counting.step_last))

private theorem fits_doWhile {latch follow : Nat} {cond : Option Cond}
    (exits : graph.exits v = [latch]) (alone : graph.entersAlone v latch = true)
    (twoWay : TwoWay config graph latch v follow cond) (leaves : follow ≠ v ∧ follow ≠ latch) :
    graph.Fits
      { members := [v, latch], entry := v, node := { shape := .doWhile v latch, cond }
        out := [follow], returns := graph.returns v || graph.returns latch } := by
  have toLatch : latch ∈ graph.exits v := (mem_exits_of_eq exits).mpr rfl
  have toFollow := (twoWay.mem_exits follow).mpr (.inr rfl)
  have below := Digraph.lt_size_of_isLive live
  have latchBelow := Digraph.lt_size_of_isLive (wellFormed.isLive_of_mem_exits toLatch)
  refine fits_arms wellFormed live (List.ne_nil_of_mem toLatch) (by simpa using ⟨toLatch, alone⟩)
    (by simpa using ⟨leaves.2, .inr toFollow⟩) ?_ (by simp) (by simp [Node.kind, Shape.kind])
    (by simp [Node.references, Shape.children, below, latchBelow]) (by simp)
  intro m member t exit
  simp only [List.mem_cons, List.not_mem_nil, or_false] at member ⊢
  rcases member with rfl | rfl
  · exact .inl (.inr ((mem_exits_of_eq exits).mp exit))
  · exact ((twoWay.mem_exits t).mp exit).imp_left .inl

/-! ## Acyclic regions -/

omit wellFormed live in
theorem Foldable.mem_outer_exits {m vertex : Nat} {head : Node} {outer inner : Cond × Nat × Nat}
    (foldable : Foldable config labels graph v m vertex head outer inner) (d : Nat) :
    d ∈ graph.exits v ↔ d = outer.2.1 ∨ d = outer.2.2 := by
  rw [exits, List.mem_eraseDups, foldable.outer_branches]
  simp

omit wellFormed live in
theorem Foldable.mem_inner_exits {m vertex : Nat} {head : Node} {outer inner : Cond × Nat × Nat}
    (foldable : Foldable config labels graph v m vertex head outer inner) (d : Nat) :
    d ∈ graph.exits m ↔ d = inner.2.1 ∨ d = inner.2.2 := by
  rw [exits, List.mem_eraseDups, foldable.inner_branches]
  simp

omit wellFormed live in
/-- Folding keeps every way out of the two regions but the one between them. -/
theorem Foldable.mem_out_iff {m vertex first second : Nat} {head : Node} {folded : Cond}
    {outer inner : Cond × Nat × Nat}
    (foldable : Foldable config labels graph v m vertex head outer inner)
    (branch : foldedBranch? m outer inner = some (folded, first, second)) (t : Nat) :
    t ∈ [first, second] ↔ t ≠ m ∧ (t ∈ graph.exits v ∨ t ∈ graph.exits m) := by
  obtain ⟨outerDifferent, outerTrue, outerFalse⟩ := foldable.outer_proper
  obtain ⟨innerDifferent, innerTrue, innerFalse⟩ := foldable.inner_proper
  rw [foldable.mem_outer_exits, foldable.mem_inner_exits]
  simp only [List.mem_cons, List.not_mem_nil, or_false]
  rcases foldedBranch?_cases branch with ⟨rfl, same, _, rfl, rfl⟩ | ⟨rfl, same, _, rfl, rfl⟩ |
    ⟨rfl, same, _, rfl, rfl⟩ | ⟨rfl, same, _, rfl, rfl⟩ <;> grind

private theorem fits_compound {m vertex first second : Nat} {head : Node} {folded : Cond}
    {outer inner : Cond × Nat × Nat}
    (foldable : Foldable config labels graph v m vertex head outer inner)
    (branch : foldedBranch? m outer inner = some (folded, first, second)) :
    graph.Fits
      { members := [v, m], entry := v, node := { head with cond := some folded }
        out := [first, second], returns := graph.returns v } := by
  have toArm := (foldable.mem_outer_exits m).mpr foldable.isArm
  have out_iff := foldable.mem_out_iff branch
  refine fits_arms wellFormed live (List.ne_nil_of_mem toArm)
    (by simpa using ⟨toArm, foldable.alone⟩) ?_ ?_ (by simp [foldable.stays]) ?_ ?_ ?_
  · intro t isOut
    obtain ⟨notArm, exit⟩ := (out_iff t).mp isOut
    exact ⟨by simpa using notArm, by simpa using exit⟩
  · intro d member t exit
    simp only [List.mem_cons, List.not_mem_nil, or_false] at member
    have way : t ∈ graph.exits v ∨ t ∈ graph.exits m := by
      rcases member with rfl | rfl
      · exact .inl exit
      · exact .inr exit
    by_cases isArm : t = m
    · exact .inl (by simp [isArm])
    · exact .inr ((out_iff t).mpr ⟨isArm, way⟩)
  · show head.kind ≠ .jump
    rcases foldable.head_kind with kind | kind <;> rw [kind] <;> decide
  · intro r refers
    exact Nat.lt_trans (wellFormed.nested.below foldable.head_node r refers)
      (Digraph.lt_size_of_isLive live)
  · intro nodes shape
    obtain ⟨headShape, headCond⟩ := head
    dsimp only at shape
    subst shape
    exact wellFormed.nested.parts foldable.head_node

private theorem fits_sequence {next : Nat} (exits : graph.exits v = [next])
    (alone : graph.entersAlone v next = true) (ends : next ∉ graph.exits next) :
    graph.Fits
      { members := [v, next], entry := v
        node := { shape := .seq (graph.sequenceParts v ++ graph.sequenceParts next) }
        out := graph.successors next, returns := graph.returns v } := by
  have toNext : next ∈ graph.exits v := (mem_exits_of_eq exits).mpr rfl
  have nextLive := wellFormed.isLive_of_mem_exits toNext
  have below := Digraph.lt_size_of_isLive live
  have nextBelow := Digraph.lt_size_of_isLive nextLive
  refine
    { entry_mem := by simp
      live := by simp [live, nextLive]
      single := mem_of_enters_arm wellFormed.consistent (by simpa using alone)
      out_edge := fun t edge => ⟨next, by simp, edge⟩
      out_entry := ?_
      covers := ?_
      returns_iff := ?_
      entry_branches := List.ne_nil_of_mem (List.mem_eraseDups.mp toNext)
      node_kind := by simp [Node.kind, Shape.kind]
      node_below := ?_
      node_parts := ?_
      part_shape := by simp }
  · intro t edge member
    simp only [List.mem_cons, List.not_mem_nil, or_false] at member
    refine member.resolve_right ?_
    rintro rfl
    exact ends (mem_exits.mpr ⟨edge, wellFormed.ne_terminator_of_isLive nextLive⟩)
  · intro m member t exit
    simp only [List.mem_cons, List.not_mem_nil, or_false] at member
    rcases member with rfl | rfl
    · rw [(mem_exits_of_eq exits).mp exit]
      exact .inl (by simp)
    · exact .inr (mem_exits.mp exit).1
  · simp only [List.mem_cons, List.not_mem_nil, or_false, exists_eq_or_imp, exists_eq_left]
    rw [returns_iff, returns_iff]
    exact Or.comm
  · intro r refers
    have parts : r ∈ graph.sequenceParts v ++ graph.sequenceParts next := refers
    rcases List.mem_append.mp parts with first | second
    · have := sequenceParts_le wellFormed first
      exact .inl (by omega)
    · have := sequenceParts_le wellFormed second
      exact .inl (by omega)
  · intro nodes shape
    cases shape
    simp [sequenceParts_ne_nil wellFormed v]

private theorem fits_ifElse {thenArm elseArm : Nat} {follow : List Nat}
    (branches : graph.branches v = [thenArm, elseArm])
    (then_alone : graph.entersAlone v thenArm = true)
    (else_alone : graph.entersAlone v elseArm = true)
    (follow_eq : follow = (graph.exits thenArm ++ graph.exits elseArm).eraseDups)
    (outside : v ∉ follow ∧ thenArm ∉ follow ∧ elseArm ∉ follow) :
    graph.Fits
      { members := [v, thenArm, elseArm], entry := v
        node := { shape := .ifElse v thenArm elseArm, cond := graph.branchCond? v }
        out := follow
        returns := graph.returns v || graph.returns thenArm || graph.returns elseArm } := by
  have exit_iff (d : Nat) : d ∈ graph.exits v ↔ d = thenArm ∨ d = elseArm := by
    rw [exits, List.mem_eraseDups, branches]
    simp
  have follow_iff (t : Nat) :
      t ∈ follow ↔ t ∈ graph.exits thenArm ∨ t ∈ graph.exits elseArm := by
    rw [follow_eq, List.mem_eraseDups, List.mem_append]
  have toThen := (exit_iff thenArm).mpr (.inl rfl)
  have toElse := (exit_iff elseArm).mpr (.inr rfl)
  have below := Digraph.lt_size_of_isLive live
  have thenBelow := Digraph.lt_size_of_isLive (wellFormed.isLive_of_mem_exits toThen)
  have elseBelow := Digraph.lt_size_of_isLive (wellFormed.isLive_of_mem_exits toElse)
  refine fits_arms wellFormed live (List.ne_nil_of_mem toThen)
    (by simpa using ⟨⟨toThen, then_alone⟩, toElse, else_alone⟩) ?_ ?_ (by simp [or_assoc])
    (by simp [Node.kind, Shape.kind])
    (by simp [Node.references, Shape.children, below, thenBelow, elseBelow]) (by simp)
  · intro t isOut
    refine ⟨?_, by simpa using .inr ((follow_iff t).mp isOut)⟩
    rintro (isArm : t ∈ [thenArm, elseArm])
    simp only [List.mem_cons, List.not_mem_nil, or_false] at isArm
    rcases isArm with rfl | rfl
    · exact outside.2.1 isOut
    · exact outside.2.2 isOut
  · intro m member t exit
    simp only [List.mem_cons, List.not_mem_nil, or_false] at member
    rcases member with rfl | rfl | rfl
    · rcases (exit_iff t).mp exit with rfl | rfl <;> exact .inl (by simp)
    · exact .inr ((follow_iff t).mpr (.inl exit))
    · exact .inr ((follow_iff t).mpr (.inr exit))

private theorem fits_ifThen {arm follow : Nat} {cond : Option Cond}
    (twoWay : TwoWay config graph v arm follow cond)
    (proper : arm ≠ follow ∧ arm ≠ v ∧ follow ≠ v)
    (alone : graph.entersAlone v arm = true)
    (exits : graph.exits arm = [] ∨ graph.exits arm = [follow]) :
    graph.Fits
      { members := [v, arm], entry := v, node := { shape := .ifThen v arm, cond }
        out := [follow], returns := graph.returns v || graph.returns arm } := by
  have toArm := (twoWay.mem_exits arm).mpr (.inl rfl)
  have toFollow := (twoWay.mem_exits follow).mpr (.inr rfl)
  have below := Digraph.lt_size_of_isLive live
  have armBelow := Digraph.lt_size_of_isLive (wellFormed.isLive_of_mem_exits toArm)
  refine fits_arms wellFormed live (List.ne_nil_of_mem toArm) (by simpa using ⟨toArm, alone⟩)
    (by simpa using ⟨proper.1.symm, .inl toFollow⟩) ?_ (by simp) (by simp [Node.kind, Shape.kind])
    (by simp [Node.references, Shape.children, below, armBelow]) (by simp)
  intro m member t exit
  simp only [List.mem_cons, List.not_mem_nil, or_false] at member ⊢
  rcases member with rfl | rfl
  · exact ((twoWay.mem_exits t).mp exit).imp_left .inr
  · rcases exits with none | one
    · rw [none] at exit
      cases exit
    · exact .inr ((mem_exits_of_eq one).mp exit)

private theorem fits_switch {follow : Option Nat} {arms : List Nat} {returns : Bool}
    {node : Node} (shape : ∃ cases, node = { shape := .switch v cases } ∧
      ∀ d, some d ∈ cases.map Arm.body → d ∈ graph.exits v)
    (switching : Switching config graph v follow arms)
    (returns_iff : returns = true ↔ ∃ m ∈ v :: arms, graph.returns m = true) :
    graph.Fits { members := v :: arms, entry := v, node, out := follow.toList, returns } := by
  have arm_iff (d : Nat) : d ∈ arms ↔ d ∈ graph.exits v ∧ follow ≠ some d := by
    rw [switching.arms_eq, List.mem_filter]
    simp
  have below := Digraph.lt_size_of_isLive live
  obtain ⟨cases, rfl, bodies⟩ := shape
  refine fits_arms wellFormed live switching.some_exit
    (fun d isArm => ⟨((arm_iff d).mp isArm).1, switching.arm_alone d isArm⟩) ?_ ?_ returns_iff
    (by simp [Node.kind, Shape.kind]) ?_ (by simp)
  · intro t isOut
    have isFollow := Option.mem_toList.mp isOut
    refine ⟨fun isArm => ((arm_iff t).mp isArm).2 isFollow, ?_⟩
    rcases switching.follow_edge t isFollow with ⟨exit, _⟩ | ⟨d, isArm, exit⟩
    · exact ⟨v, List.mem_cons_self, exit⟩
    · exact ⟨d, List.mem_cons_of_mem _ isArm, exit⟩
  · intro m member t exit
    rcases List.mem_cons.mp member with rfl | isArm
    · by_cases isFollow : follow = some t
      · exact .inr (Option.mem_toList.mpr isFollow)
      · exact .inl (List.mem_cons_of_mem _ ((arm_iff t).mpr ⟨exit, isFollow⟩))
    · exact .inr (Option.mem_toList.mpr (switching.arm_exits m isArm t exit).2.2)
  · intro r refers
    simp only [Node.references, Shape.children, List.mem_cons, List.mem_filterMap] at refers
    rcases refers with rfl | ⟨arm, member, body⟩
    · exact below
    · have exit := bodies r (List.mem_map.mpr ⟨arm, member, body⟩)
      exact Digraph.lt_size_of_isLive (wellFormed.isLive_of_mem_exits exit)

end

/-- Every collapse that a rule finds at a live region fits the graph. -/
theorem Matches.fits (wellFormed : graph.WellFormed) (live : graph.isLive v = true)
    (found : Matches config labels graph v collapse) : graph.Fits collapse := by
  cases found with
  | forever again only => exact fits_forever wellFormed live again only
  | selfLoop twoWay _ => exact fits_selfLoop wellFormed live twoWay
  | whileLoop loop => exact fits_whileLoop wellFormed live loop
  | forLoop loop counting isInner => exact fits_forLoop wellFormed live loop counting isInner
  | doWhile exits _ alone twoWay leaves =>
      exact fits_doWhile wellFormed live exits alone twoWay leaves
  | compound foldable branch => exact fits_compound wellFormed live foldable branch
  | sequence exits _ alone ends => exact fits_sequence wellFormed live exits alone ends
  | ifElse _ branches _ thenAlone elseAlone followEq _ outside =>
      exact fits_ifElse wellFormed live branches thenAlone elseAlone followEq outside
  | ifThen twoWay proper alone exits =>
      exact fits_ifThen wellFormed live twoWay proper alone exits
  | switch switching returns_iff =>
      refine fits_switch wellFormed live ⟨_, rfl, ?_⟩ switching returns_iff
      intro d member
      simp only [List.map_map, List.mem_map, Function.comp_apply] at member
      obtain ⟨target, isExit, body⟩ := member
      split at body
      · cases body
      · cases body
        exact isExit

end FlowRegions.RegionGraph
