import FlowRegions.Tree
import Mathlib.Data.List.Basic

/-!
Contract: what it means to run a flow and to run a tree.

A behaviour says where the branch of a vertex may go and which way its `k`-th
visit takes.  Following the edges visits one vertex after the other; running a
tree visits the vertices of its leaves as its nodes say.  Both ask the same
behaviour, so equal visits mean equal decisions.

A tree runs on a stack of tasks: to run a region from its start, or to go on
with a region whose head has just been run.

- A leaf is visited; the run halts when its vertex has no targets.
- Any other region but a jump puts its opening on the stack.
- A region that is resumed tests its condition, or takes the arm of a switch
  that holds the decision of the last leaf of its head.  A condition that is
  absent holds.
- A test takes the decision of the vertex visited last, when that is the vertex
  it tests and nothing has used the decision yet, and else visits the vertex.
- A jump lands at the leaf where its target starts, outside copies if there is
  such a leaf; what is left to do then is what surrounds that leaf.

Owns: `Behaviour`, `Behaviour.visits`, `Tree.step` and `Tree.execute`.
-/

namespace FlowRegions

/-! ## Decisions -/

/-- Where the branches of vertices go, and the position of the target that the
`k`-th visit of a vertex takes. -/
structure Behaviour where
  targets : Nat → List Nat
  decide : Nat → Nat → Nat

/-- The vertices visited so far, and the vertex visited last with its decision
until something uses it. -/
structure Journey where
  trace : List Nat := []
  pending : Option (Nat × Nat) := none
deriving DecidableEq, Repr

namespace Behaviour

variable (behaviour : Behaviour)

def next? (trace : List Nat) (v : Nat) : Option Nat :=
  (behaviour.targets v)[behaviour.decide v (trace.count v)]?

def visits : Nat → List Nat → Option Nat → List Nat
  | 0, trace, _ => trace
  | _ + 1, trace, none => trace
  | limit + 1, trace, some v => visits limit (trace ++ [v]) (behaviour.next? trace v)

/-- Visits a vertex.  Nothing is pending when it has no targets. -/
def visit (journey : Journey) (v : Nat) : Journey where
  trace := journey.trace ++ [v]
  pending :=
    if behaviour.targets v = [] then none
    else some (v, behaviour.decide v (journey.trace.count v))

/-- The decision of a vertex: the pending one, or that of a new visit. -/
def decision (journey : Journey) (v : Nat) : Option Nat × Journey :=
  let visited := if journey.pending.any (·.1 = v) then journey else behaviour.visit journey v
  (visited.pending.map Prod.snd, { visited with pending := none })

/-- Tests a condition from left to right, no further than needed.  There is no
result when a vertex without targets is visited on the way. -/
def evaluate : Cond → Journey → Option Bool × Journey
  | .test vertex, journey =>
    let (decision, decided) := behaviour.decision journey vertex
    (decision.map (· == 0), decided)
  | .not operand, journey =>
    let (holds, tested) := evaluate operand journey
    (holds.map (!·), tested)
  | .and left right, journey =>
    match evaluate left journey with
    | (some true, tested) => evaluate right tested
    | (other, tested) => (other, tested)
  | .or left right, journey =>
    match evaluate left journey with
    | (some false, tested) => evaluate right tested
    | (other, tested) => (other, tested)

def test : Option Cond → Journey → Option Bool × Journey
  | some condition, journey => behaviour.evaluate condition journey
  | none, journey => (some true, journey)

end Behaviour

/-! ## Tasks -/

/-- What is left to do: to run a region, or to go on with a region behind its
head. -/
inductive Task where
  | run (region : Nat)
  | resume (region : Nat)
deriving DecidableEq, Repr

namespace Task

def opening (i : Nat) : Shape Nat → List Task
  | .leaf _ | .jump _ => []
  | .seq nodes => nodes.map run
  | .tail body => [run body]
  | .ifThen head _ | .ifElse head _ _ | .switch head _ | .whileLoop head _ => [run head, resume i]
  | .selfLoop body => [run body, resume i]
  | .doWhile body latch => [run body, run latch, resume i]
  | .forLoop init head _ _ => [run init, run head, resume i]

def onward (i : Nat) : Shape Nat → Bool → List Task
  | .ifThen _ thenArm, true | .ifElse _ thenArm _, true => [run thenArm]
  | .ifElse _ _ elseArm, false => [run elseArm]
  | .selfLoop body, true => [run body, resume i]
  | .whileLoop head body, true => [run body, run head, resume i]
  | .doWhile body latch, true => [run body, run latch, resume i]
  | .forLoop _ head body step, true => [run body, run step, run head, resume i]
  | _, _ => []

def ofArm (arm : Arm Nat) : List Task :=
  arm.body.toList.map run

def strands (i : Nat) (shape : Shape Nat) : List (List Task) :=
  let arms := match shape with
    | .switch _ arms => arms.map ofArm
    | _ => []
  opening i shape :: onward i shape true :: onward i shape false :: arms

def places : List Task → List (Nat × List Task)
  | [] => []
  | run region :: rest => (region, rest) :: places rest
  | resume _ :: rest => places rest

end Task

/-- The tasks at the first leaf of a vertex below region `i`, with `rest` left
to do behind the region.  Parts of nodes for which `enter` fails are passed
over. -/
def NodeTable.landing? (table : NodeTable) (enter : Node → Bool) (vertex : Nat) :
    Nat → Nat → List Task → Option (List Task)
  | 0, _, _ => none
  | fuel + 1, i, rest =>
    match table i with
    | none => none
    | some node =>
      if node.leafVertex? = some vertex then some (.run i :: rest)
      else if enter node then
        ((Task.strands i node.shape).flatMap Task.places).findSome? fun (part, behind) =>
          table.landing? enter vertex fuel part (behind ++ rest)
      else none

/-! ## Machines -/

structure Machine where
  tasks : List Task
  journey : Journey
deriving DecidableEq, Repr

namespace Tree

variable (tree : Tree)

/-- The tasks at the start of a region: at the leaf it starts with, outside
copies if there is such a leaf. -/
def landing? (target : Nat) : Option (List Task) :=
  (tree.table.firstVertex? tree.nodes.size target).bind fun vertex =>
    let search (enter : Node → Bool) :=
      tree.table.landing? enter vertex tree.nodes.size tree.root []
    (search fun node => node.kind != .tail).or (search fun _ => true)

/-- How a region goes on behind its head: which tasks are next, unless the run
halts. -/
def goOn (behaviour : Behaviour) (i : Nat) (node : Node) (journey : Journey) :
    Option (List Task) × Journey :=
  match node.shape with
  | .switch head arms =>
    match tree.table.branchingVertex? tree.nodes.size head with
    | none => (none, journey)
    | some last =>
      let (decision, decided) := behaviour.decision journey last
      let arm? := decision.bind fun position => arms.find? (·.edges.contains position)
      (arm?.map Task.ofArm, decided)
  | shape =>
    let (holds, tested) := behaviour.test node.cond journey
    (holds.map (Task.onward i shape), tested)

/-- Does the first task.  Nothing is left to do when the run halts. -/
def step (behaviour : Behaviour) (machine : Machine) : Machine :=
  match machine.tasks with
  | [] => machine
  | .run i :: rest =>
    match tree.table i with
    | none => { machine with tasks := [] }
    | some node =>
      match node.shape with
      | .leaf vertex =>
        let visited := behaviour.visit machine.journey vertex
        { tasks := if visited.pending.isSome then rest else [], journey := visited }
      | .jump target => { machine with tasks := (tree.landing? target).getD [] }
      | shape => { machine with tasks := Task.opening i shape ++ rest }
  | .resume i :: rest =>
    match tree.table i with
    | none => { machine with tasks := [] }
    | some node =>
      let (next, journey) := tree.goOn behaviour i node machine.journey
      { tasks := (next.map (· ++ rest)).getD [], journey }

def execute (behaviour : Behaviour) : Nat → Machine
  | 0 => { tasks := [.run tree.root], journey := {} }
  | steps + 1 => tree.step behaviour (execute behaviour steps)

end Tree

end FlowRegions
