import LockAudit.Analysis
import LockAudit.BitRows
import LockAudit.CallGraph.Basic
import LockAudit.CallGraph.Reach
import LockAudit.CommandLine.Arguments
import LockAudit.CommandLine.Files
import LockAudit.CommandLine.Flags
import LockAudit.CommandLine.Grammar
import LockAudit.CommandLine.Run
import LockAudit.CommandLine.Session
import LockAudit.CommandLine.ShellWords
import LockAudit.Detection.Cycle
import LockAudit.Detection.Detect
import LockAudit.Detection.DoubleLock
import LockAudit.Detection.Finding
import LockAudit.Detection.Inversion
import LockAudit.Detection.LockOrder
import LockAudit.Detection.Nesting
import LockAudit.FingerprintIndex
import LockAudit.FingerprintSet
import LockAudit.Json.Basic
import LockAudit.Json.Canonical
import LockAudit.Json.Reader
import LockAudit.Json.Shown
import LockAudit.Json.Writer
import LockAudit.Location
import LockAudit.Lock
import LockAudit.Log
import LockAudit.Main
import LockAudit.Name
import LockAudit.Number.Basic
import LockAudit.Number.Binary64
import LockAudit.Number.Decimal
import LockAudit.Number.Literal
import LockAudit.Options
import LockAudit.Order.Arrange
import LockAudit.Order.Ranked
import LockAudit.Order.Relation
import LockAudit.Order.Sort
import LockAudit.Path
import LockAudit.Program.Basic
import LockAudit.Program.Consistency
import LockAudit.Program.Document
import LockAudit.Report.Basic
import LockAudit.Report.Record
import LockAudit.Report.Text
import LockAudit.Text.Blank
import LockAudit.Text.Digit
import LockAudit.Text.Printable
import LockAudit.Text.Quoted
import LockAudit.Text.Surrogate
import LockAudit.Walk.Collect
import LockAudit.Walk.Explore
import LockAudit.Walk.State
import LockAudit.Walk.Step
import LockAudit.Proofs.Detection.Replay
import LockAudit.Proofs.Walk.Effect
import LockAudit.Proofs.Walk.Matching
import LockAudit.Proofs.Walk.Run
import LockAudit.Proofs.Order.Permutation
import LockAudit.Proofs.Order.Sorted
import LockAudit.Proofs.Order.Related
import LockAudit.Proofs.Walk.Recording
import LockAudit.Proofs.Detection.Grouping
import LockAudit.Proofs.Detection.Grounds
import LockAudit.Proofs.Findings
import LockAudit.Proofs.Walk.Congruence
import LockAudit.Proofs.Walk.Closure
import LockAudit.Proofs.Walk.Enumeration
import LockAudit.Proofs.Name.Order
import LockAudit.Proofs.BitRows
import LockAudit.Proofs.Detection.Partition
import LockAudit.Proofs.Detection.CycleSearch
import LockAudit.Proofs.Detection.Spread
import LockAudit.Proofs.Detection.Occurrence
import LockAudit.Proofs.Detection.LockOrder
import LockAudit.Proofs.Detection.Answer
import LockAudit.Proofs.Detection.DoubleLocks
import LockAudit.Proofs.Detection.Inversions
import LockAudit.Proofs.Detection.Cycles
import LockAudit.Proofs.Except
import LockAudit.Proofs.Program.Branching
import LockAudit.Proofs.Program.Consistency
import LockAudit.Proofs.Walk.Visits
import LockAudit.Proofs.Walk.Stack
import LockAudit.Proofs.Walk.Keyed
import LockAudit.Proofs.Walk.Termination
import LockAudit.Proofs.Walk.Returning
import LockAudit.Proofs.CallGraph.Reach
import LockAudit.Proofs.CallGraph.Lookup
import LockAudit.Proofs.CallGraph.Liveness
import LockAudit.Proofs.Walk.Activations
import LockAudit.Proofs.Walk.Ownership
import LockAudit.Proofs.Walk.Lookups
import LockAudit.Proofs.Walk.Revisits
import LockAudit.Proofs.Walk.Agreement
import LockAudit.Proofs.Walk.BranchOrder
import LockAudit.Proofs.Walk.Naming
import LockAudit.Proofs.Liveness
import LockAudit.Proofs.Detection.PathOrder
import LockAudit.Proofs.Rearrangement
import LockAudit.Proofs.BranchOrder
import LockAudit.Proofs.Walk.Pruning
import LockAudit.Proofs.Walk.CallTargets
import LockAudit.Proofs.Program.Document
import LockAudit.Proofs.Detection.MorePaths
import LockAudit.Proofs.Walk.PathLimit
import LockAudit.Proofs.Walk.GuardEnds
import LockAudit.Proofs.Detection.Totality
import LockAudit.Proofs.Location
import LockAudit.Proofs.CallGraph.Construction
import LockAudit.Proofs.CallGraph.Recursion
import LockAudit.Proofs.Walk.Identity
import LockAudit.Proofs.CommandLine.Precedence
import LockAudit.Proofs.CommandLine.Outcome
