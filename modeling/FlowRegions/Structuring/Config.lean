/-!
Contract: the limits of structuring and what the caller knows about the input
vertices.
-/

namespace FlowRegions

structure Config where
  /-- Graphs with more live vertices are refused. -/
  maxVertices : Int := 65536
  /-- How many regions may be duplicated to resolve irreducible loops. -/
  maxDuplications : Nat := 8
  /-- How many leaves a duplicated region may have. -/
  duplicationSize : Int := 4
  /-- Whether loops with a test at the top may become counting loops. -/
  forLoops : Bool := true
  /-- Input vertices whose branch is a switch however few targets it has. -/
  multiway : Nat → Bool := fun _ => false
  /-- Input vertices that only evaluate their branch condition; they may be
  folded into the branch before them. -/
  onlyTests : Nat → Bool := fun _ => false
  /-- Input vertices simple enough to step a counting loop. -/
  isStep : Nat → Bool := fun _ => false
deriving Inhabited

end FlowRegions
