import FlowRegions.Routine
import FlowRegions.Structuring.Run

/-!
Contract: structuring the control flow of a routine.

What structuring needs to know about vertices is read off the blocks, unless
the caller overrides it: blocks with a case list are switches, blocks that
hold nothing but a condition are folded into compound conditions, and blocks
of a single statement may step counting loops.
-/

namespace FlowRegions

inductive StructuringError where
  | invalidRoutine (name : String) (fault : RoutineFault)
  | rejected (name : String) (cause : RejectedGraph)
  | failed (name : String) (cause : RunError)
deriving DecidableEq, Repr

def StructuringError.message : StructuringError → String
  | invalidRoutine name fault => fault.message name
  | rejected name cause => s!"structure {name}: {cause.message}"
  | failed name cause => s!"structure {name}: {cause.message}"

namespace Routine

variable {σ ε : Type}

def blockHas (routine : Routine σ ε) (property : Block σ ε → Bool) (vertex : Nat) : Bool :=
  (routine.blockAt? vertex).any property

def config (routine : Routine σ ε) : Config where
  multiway := routine.blockHas Block.isMultiway
  onlyTests := routine.blockHas Block.onlyTests
  isStep := routine.blockHas Block.isStep

/-- Structures a routine, with the configuration its blocks suggest as the
caller adjusts it; with what was reported on the way. -/
def structured (routine : Routine σ ε) (adjust : Config → Config) :
    List Event × Except StructuringError Tree :=
  match routine.graph with
  | .error fault => ([], .error (.invalidRoutine routine.name fault))
  | .ok graph =>
    match Structuring.ofGraph (adjust routine.config) graph with
    | .error rejected => ([], .error (.rejected routine.name rejected))
    | .ok structuring =>
      let (_, events, result) := structuring.run
      (events, result.mapError (.failed routine.name))

end Routine

end FlowRegions
