import FlowRegions.Digraph.Basic
import FlowRegions.Digraph.Lemmas
import FlowRegions.Digraph.Traversal
import FlowRegions.Digraph.Stored
import FlowRegions.DisjointSet
import FlowRegions.Sorting
import FlowRegions.Dominance.Tree
import FlowRegions.Interval.Basic
import FlowRegions.Interval.Derived
import FlowRegions.Cond
import FlowRegions.Node
import FlowRegions.Tree
import FlowRegions.Routine
import FlowRegions.Structuring.Config
import FlowRegions.Structuring.RegionGraph
import FlowRegions.Structuring.Analysis
import FlowRegions.Structuring.Collapse
import FlowRegions.Structuring.Loops
import FlowRegions.Structuring.Branches
import FlowRegions.Structuring.Residue
import FlowRegions.Structuring.Step
import FlowRegions.Structuring.Run
import FlowRegions.Structuring.OfRoutine
import FlowRegions.Text.Printable
import FlowRegions.Text.Quoted
import FlowRegions.Digraph.Listing
import FlowRegions.Digraph.Drawing
import FlowRegions.Digraph.Dot
import FlowRegions.Proofs.Lists
import FlowRegions.Proofs.Digraph.Marks
import FlowRegions.Proofs.Digraph.Consistency
import FlowRegions.Proofs.Digraph.Calls
import FlowRegions.Proofs.Digraph.Edgeless
import FlowRegions.Proofs.Digraph.Walks
import FlowRegions.Proofs.Digraph.Cycles
import FlowRegions.Proofs.Digraph.Contraction
import FlowRegions.Proofs.Traversal.DepthFirst
import FlowRegions.Proofs.Traversal.Preorder
import FlowRegions.Proofs.Traversal.Numbering
import FlowRegions.Proofs.Traversal.Postorder
import FlowRegions.Proofs.DisjointSet.Roots
import FlowRegions.Proofs.DisjointSet.Connectivity
import FlowRegions.Proofs.Dominance.Semidominators
import FlowRegions.Proofs.Dominance.Workspace
import FlowRegions.Proofs.Dominance.Correctness
import FlowRegions.Proofs.Dominance.Queries
import FlowRegions.Proofs.Dominance.Dominees
import FlowRegions.Proofs.Routine.Flow
import FlowRegions.Proofs.Structuring.Table
import FlowRegions.Proofs.Structuring.Regions
import FlowRegions.Proofs.Structuring.Flow
import FlowRegions.Proofs.Structuring.CollapseEffect
import FlowRegions.Proofs.Structuring.Rules
import FlowRegions.Proofs.Structuring.Choices
import FlowRegions.Proofs.Structuring.Completeness
import FlowRegions.Proofs.Structuring.Edits
import FlowRegions.Proofs.Structuring.RulesFit
import FlowRegions.Proofs.Structuring.Weight
import FlowRegions.Proofs.Structuring.Steps
import FlowRegions.Proofs.Structuring.Fidelity
import FlowRegions.Proofs.Structuring.Composite
import FlowRegions.Proofs.Structuring.Contents
import FlowRegions.Proofs.Structuring.Initial
import FlowRegions.Proofs.Structuring.Labels
import FlowRegions.Proofs.Structuring.Runs
import FlowRegions.Proofs.Structuring.Progress
import FlowRegions.Proofs.Structuring.Reachability
import FlowRegions.Proofs.Structuring.Coverage
import FlowRegions.Proofs.Structuring.Rootless
import FlowRegions.Proofs.Structuring.Quotient
import FlowRegions.Proofs.Structuring.BranchFidelity
import FlowRegions.Proofs.Structuring.Routines
import FlowRegions.Proofs.Structuring.Partition
import FlowRegions.Proofs.Execution.Machine
import FlowRegions.Proofs.Execution.Decisions
import FlowRegions.Proofs.Execution.Wiring
import FlowRegions.Proofs.Execution.Composition
import FlowRegions.Proofs.Execution.Landing
import FlowRegions.Proofs.Execution.Simulation
import FlowRegions.Proofs.Execution.Structured
import FlowRegions.Proofs.Structuring.Jumps
import FlowRegions.Proofs.Structuring.Reducible
import FlowRegions.Proofs.Renaming.Graph
import FlowRegions.Proofs.Renaming.Traversal
import FlowRegions.Proofs.Renaming.Regions
import FlowRegions.Proofs.Renaming.Rules
import FlowRegions.Proofs.Renaming.Residue
import FlowRegions.Proofs.Renaming.Edits
import FlowRegions.Proofs.Interval.Headers
import FlowRegions.Proofs.Interval.Quotient
import FlowRegions.Proofs.Renaming.Limit
import FlowRegions.Proofs.Renaming.Runs
import FlowRegions.Proofs.Renaming.Trees
import FlowRegions.Proofs.Renaming.Routines
import FlowRegions.Proofs.Interval.Reducibility
import FlowRegions.Proofs.Interval.Partition
import FlowRegions.Proofs.Interval.SingleEntry
import FlowRegions.Proofs.Interval.Derivation
import FlowRegions.Proofs.Interval.Merging
import FlowRegions.Proofs.Interval.EarlyLimit
import FlowRegions.Proofs.Structuring.Contraction
import FlowRegions.Proofs.Structuring.JumpFree
import FlowRegions.Proofs.Structuring.Acceptance
import FlowRegions.Proofs.Structuring.Reattachment
import FlowRegions.Proofs.Structuring.Safety
import FlowRegions.Proofs.Structuring.Conditions
import FlowRegions.Proofs.Digraph.Stored
import FlowRegions.Proofs.Digraph.Evolution
import FlowRegions.Proofs.Traversal.Agreement
import FlowRegions.Proofs.Structuring.SecondEntries
import FlowRegions.Proofs.Structuring.NaturalLoops
import FlowRegions.Proofs.Structuring.SwitchArms
import FlowRegions.Proofs.Digraph.Drawing
import FlowRegions.Proofs.Digraph.Dot
import FlowRegions.Proofs.Digraph.LivePart
import FlowRegions.Proofs.Text.Forms
import FlowRegions.Proofs.Tree.Outline
import FlowRegions.Proofs.Structuring.References
import FlowRegions.Proofs.Structuring.ReturnedTrees
import FlowRegions.Proofs.Digraph.Requests
import FlowRegions.Proofs.Routine.Building
import FlowRegions.Proofs.Structuring.CheckedSteps
import FlowRegions.Proofs.Structuring.RoutineSafety
import FlowRegions.Proofs.Structuring.Ancestry
import FlowRegions.Proofs.Structuring.Foundations
