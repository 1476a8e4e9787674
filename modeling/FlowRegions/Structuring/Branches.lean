import FlowRegions.Structuring.Collapse

/-!
Contract: the rules that recognise acyclic regions.

Each rule looks at the region that heads the construct and finds a `Collapse`
if it has its shape: a compound condition, a sequence, a conditional with two
arms or one, a switch.
-/

namespace FlowRegions.RegionGraph

/-! ## Compound conditions -/

/-- The branch that results when a region `m` that only tests a condition is
folded into the branch of `n`, with its two targets.  The two must share a
target:

* `n ? (m ? x : f) : f` is `(n && m) ? x : f`;
* `n ? t : (m ? t : y)` is `(n || m) ? t : y`;

and likewise with `m` negated. -/
def foldedBranch? (m : Nat) (outer : Cond × Nat × Nat) (inner : Cond × Nat × Nat) :
    Option (Cond × Nat × Nat) :=
  let (n, whenTrue, whenFalse) := outer
  let (test, innerTrue, innerFalse) := inner
  if m = whenTrue && innerFalse = whenFalse then
    some (.and n test, innerTrue, whenFalse)
  else if m = whenTrue && innerTrue = whenFalse then
    some (.and n test.negate, innerFalse, whenFalse)
  else if m = whenFalse && innerTrue = whenTrue then
    some (.or n test, whenTrue, innerFalse)
  else if m = whenFalse && innerFalse = whenTrue then
    some (.or n test.negate, whenTrue, innerTrue)
  else none

/-- Whether `m` is a leaf that does nothing but test its condition, is entered
from `n` only, never returns and is no label.  A label must stay a place that
a jump can go to. -/
def isFoldable (config : Config) (labels : List Nat) (graph : RegionGraph) (n m : Nat) :
    Bool :=
  match (graph.table m).bind Node.leafVertex? with
  | none => false
  | some vertex =>
    config.onlyTests vertex && graph.entersAlone n m && !graph.returns m &&
      !labels.contains vertex

def compound? (config : Config) (labels : List Nat) (graph : RegionGraph) (n : Nat) :
    Option Collapse :=
  match graph.table n, graph.fork? config n, graph.branchCond? n with
  | some head, some (whenTrue, whenFalse), some cond =>
    if head.kind != .leaf && head.kind != .seq then none
    else
      [whenTrue, whenFalse].findSome? fun m =>
        if !isFoldable config labels graph n m then none
        else
          match graph.fork? config m, graph.branchCond? m with
          | some (innerTrue, innerFalse), some test =>
            match foldedBranch? m (cond, whenTrue, whenFalse)
                (test, innerTrue, innerFalse) with
            | some (folded, first, second) =>
              some
                { members := [n, m]
                  entry := n
                  node := { head with cond := some folded }
                  out := [first, second]
                  returns := graph.returns n }
            | none => none
          | _, _ => none
  | _, _, _ => none

/-! ## Sequences -/

/-- The regions that a region contributes to a sequence: its own parts if it is
a sequence without a folded condition. -/
def sequenceParts (graph : RegionGraph) (v : Nat) : List Nat :=
  match graph.table v with
  | some { shape := .seq nodes, cond := none } => nodes
  | _ => [v]

/-- A region and its only exit, which is entered from nowhere else. -/
def sequence? (_ : Config) (graph : RegionGraph) (n : Nat) : Option Collapse :=
  match graph.exits n with
  | [next] =>
    if next = n || !graph.entersAlone n next || (graph.exits next).contains next then none
    else
      some
        { members := [n, next]
          entry := n
          node := { shape := .seq (graph.sequenceParts n ++ graph.sequenceParts next) }
          out := graph.successors next
          returns := graph.returns n }
  | _ => none

/-! ## Conditionals -/

/-- A two-way branch whose arms are entered from it only and meet again at one
place, or go nowhere. -/
def ifElse? (config : Config) (graph : RegionGraph) (n : Nat) : Option Collapse :=
  match graph.fork? config n with
  | none => none
  | some (thenArm, elseArm) =>
    let follow := (graph.exits thenArm ++ graph.exits elseArm).eraseDups
    if !graph.entersAlone n thenArm || !graph.entersAlone n elseArm then none
    else if 1 < follow.length || [n, thenArm, elseArm].any follow.contains then none
    else
      some
        { members := [n, thenArm, elseArm]
          entry := n
          node := { shape := .ifElse n thenArm elseArm, cond := graph.branchCond? n }
          out := follow
          returns := graph.returns n || graph.returns thenArm || graph.returns elseArm }

/-- A two-way branch with an arm that is entered from it only and goes on to
the other target, or nowhere. -/
def ifThen? (config : Config) (graph : RegionGraph) (n : Nat) : Option Collapse :=
  match graph.fork? config n with
  | none => none
  | some (whenTrue, whenFalse) =>
    let cond := graph.branchCond? n
    let ways := [(whenTrue, whenFalse, cond), (whenFalse, whenTrue, cond.map Cond.negate)]
    ways.findSome? fun (arm, follow, cond) =>
      let exits := graph.exits arm
      if graph.entersAlone n arm && (exits.isEmpty || exits == [follow]) then
        some
          { members := [n, arm]
            entry := n
            node := { shape := .ifThen n arm, cond }
            out := [follow]
            returns := graph.returns n || graph.returns arm }
      else none

/-! ## Switches -/

structure SwitchScan where
  /-- Where the arms meet again. -/
  follow : Option Nat
  members : List Nat
  returns : Bool
deriving DecidableEq, Repr

def SwitchScan.meet? (n d : Nat) (follow : Option Nat) (exit : Nat) : Option (Option Nat) :=
  if exit = d || exit = n then none
  else match follow with
    | none => some (some exit)
    | some place => if exit = place then some follow else none

/-- Takes in one target: the place where the arms meet is an empty arm, any
other target is an arm that must lead there. -/
def SwitchScan.take? (graph : RegionGraph) (n : Nat) (scan : SwitchScan) (d : Nat) :
    Option SwitchScan :=
  if scan.follow = some d then some scan
  else
    match (graph.exits d).foldlM (meet? n d) scan.follow with
    | none => none
    | some follow =>
      some
        { follow
          members := scan.members ++ [d]
          returns := scan.returns || graph.returns d }

def positionsOf (branches : List Nat) (target : Nat) : List Nat :=
  (branches.zipIdx.filter fun (branch, _) => branch == target).map Prod.snd

/-- A many-way branch whose arms are entered from it only and meet again at one
place.  A target with other predecessors is that place, and the arms that lead
to it are empty. -/
def switch? (config : Config) (graph : RegionGraph) (n : Nat) : Option Collapse :=
  let branches := graph.branches n
  let targets := branches.eraseDups
  let shared := targets.filter fun d => !graph.entersAlone n d
  if !graph.branchesManyWays config n || targets.isEmpty || targets.contains n ||
      1 < shared.length then none
  else
    let initial : SwitchScan :=
      { follow := shared.head?, members := [n], returns := graph.returns n }
    match targets.foldlM (SwitchScan.take? graph n) initial with
    | none => none
    | some scan =>
      let arms := targets.map fun d =>
        { edges := positionsOf branches d
          body := if scan.follow = some d then none else some d : Arm Nat }
      some
        { members := scan.members
          entry := n
          node := { shape := .switch n arms }
          out := scan.follow.toList
          returns := scan.returns }

/-- The acyclic region headed by a region, if it has one of the recognised
shapes.  Compound conditions are tried apart from these. -/
def acyclic? (config : Config) (graph : RegionGraph) (v : Nat) : Option Collapse :=
  [sequence?, ifElse?, ifThen?, switch?].findSome? fun rule => rule config graph v

end FlowRegions.RegionGraph
