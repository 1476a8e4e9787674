import FlowRegions.Structuring.Collapse

/-!
Contract: the rules that recognise loops.

Each rule looks at the region that heads the loop and finds a `Collapse` if
the loop has its shape: a region that repeats itself, a test at the top, a
test at the bottom.  A test at the top becomes a counting loop when a single
leaf leads into it and its body ends in a step.
-/

namespace FlowRegions.RegionGraph

/-- A region that branches to itself, always or from a two-way branch whose
other target leaves the loop. -/
def selfLoop? (config : Config) (graph : RegionGraph) (v : Nat) : Option Collapse :=
  let branches := graph.branches v
  let others := (branches.filter (· != v)).eraseDups
  let collapse (cond : Option Cond) : Collapse :=
    { members := [v]
      entry := v
      node := { shape := .selfLoop v, cond }
      out := others
      returns := graph.returns v }
  if !branches.contains v then none
  else if others.isEmpty then some (collapse none)
  else if branches.length = 2 && others.length = 1 && !graph.branchesManyWays config v then
    let repeats := graph.branchCond? v
    some (collapse (if branches.head? = some v then repeats else repeats.map Cond.negate))
  else none

structure TopTest where
  head : Nat
  body : Nat
  follow : Nat
  cond : Option Cond
  returns : Bool
deriving DecidableEq, Repr

/-- The only predecessor of a loop header outside its body, if it is a leaf
that leads nowhere else. -/
def initializer? (graph : RegionGraph) (loop : TopTest) : Option Nat :=
  match (graph.entrants loop.head).filter (· != loop.body) with
  | [init] =>
    if init != Digraph.root && init != loop.follow && graph.isLeaf init &&
        graph.successors init == [loop.head] then
      some init
    else none
  | _ => none

def steppedBody? (config : Config) (graph : RegionGraph) (body : Nat) :
    Option (List Nat × Nat) :=
  match graph.table body with
  | some { shape := .seq nodes, .. } =>
    match nodes.getLast? with
    | none => none
    | some step =>
      let isStep := (graph.table step).any fun node => node.leafVertex?.any config.isStep
      if 2 ≤ nodes.length && isStep then some (nodes.dropLast, step) else none
  | _ => none

/-- A loop with its test at the top as a counting loop: the header is a leaf
entered from one initialising leaf, and the body ends in a step.  What remains
of a body of several parts is a sequence of its own. -/
def forLoop? (config : Config) (graph : RegionGraph) (loop : TopTest) : Option Collapse :=
  if !graph.isLeaf loop.head then none
  else
    match graph.steppedBody? config loop.body, graph.initializer? loop with
    | some (rest, step), some init =>
      let (inner, part) : Nat × Option Node :=
        match rest with
        | [only] => (only, none)
        | _ => (graph.size, some { shape := .seq rest })
      some
        { members := [init, loop.head, loop.body]
          entry := init
          node := { shape := .forLoop init loop.head inner step, cond := loop.cond }
          out := [loop.follow]
          returns := loop.returns
          part }
    | _, _ => none

/-- A loop with its test at the top: a two-way header with a body that is
entered from the header only and leads back to it only. -/
def whileLoop? (config : Config) (graph : RegionGraph) (head : Nat) : Option Collapse :=
  match graph.fork? config head with
  | none => none
  | some (whenTrue, whenFalse) =>
    let cond := graph.branchCond? head
    let ways := [(whenTrue, whenFalse, cond), (whenFalse, whenTrue, cond.map Cond.negate)]
    ways.findSome? fun (body, follow, cond) =>
      if graph.entersAlone head body && graph.exits body == [head] then
        let returns := graph.returns head || graph.returns body
        let loop : TopTest := { head, body, follow, cond, returns }
        let counting := if config.forLoops then graph.forLoop? config loop else none
        some <| counting.getD
          { members := [head, body]
            entry := head
            node := { shape := .whileLoop head body, cond }
            out := [follow]
            returns }
      else none

/-- A loop with its test at the bottom: a body that leads to a two-way latch
only, which is entered from nowhere else and branches back to the body. -/
def doWhile? (config : Config) (graph : RegionGraph) (body : Nat) : Option Collapse :=
  match graph.exits body with
  | [latch] =>
    if latch = body || !graph.entersAlone body latch then none
    else
      let collapse (follow : Nat) (cond : Option Cond) : Collapse :=
        { members := [body, latch]
          entry := body
          node := { shape := .doWhile body latch, cond }
          out := [follow]
          returns := graph.returns body || graph.returns latch }
      match graph.binaryBranch? config latch with
      | none => none
      | some (whenTrue, whenFalse) =>
        let cond := graph.branchCond? latch
        if whenTrue = body && whenFalse != body && whenFalse != latch then
          some (collapse whenFalse cond)
        else if whenFalse = body && whenTrue != body && whenTrue != latch then
          some (collapse whenTrue (cond.map Cond.negate))
        else none
  | _ => none

def cyclic? (config : Config) (graph : RegionGraph) (v : Nat) : Option Collapse :=
  [selfLoop?, whileLoop?, doWhile?].findSome? fun rule => rule config graph v

end FlowRegions.RegionGraph
