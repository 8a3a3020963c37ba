import LockAudit.CallGraph.Reach
import LockAudit.Detection.Detect
import LockAudit.Program.Consistency
import LockAudit.Report.Record
import LockAudit.Walk.Collect

/-! # Analysis of a unit

A unit is skipped or analyzed: its program is checked, its call graph built, the lock paths of its roots
collected and the deadlocks among them detected.
-/

namespace LockAudit

inductive SkipReason
  | excluded (unit : Name)
  | buildScript
  | noCodegen
  deriving Repr, DecidableEq, Inhabited

namespace SkipReason

def text : SkipReason → String
  | excluded unit => "unit " ++ unit.display ++ " excluded by crate name list"
  | buildScript => "build script"
  | noCodegen => "no code generation requested"

end SkipReason

def skipReason? (options : Options) (p : Program) : Option SkipReason :=
  if options.units.excludes p.unit then some (.excluded p.unit)
  else if p.buildScript then some .buildScript
  else if !p.codegen then some .noCodegen
  else none

structure Metrics where
  instances : Nat
  callEdges : Nat
  unresolvedCalls : Nat
  roots : Nat
  lockPaths : Nat
  deriving Repr, DecidableEq, Inhabited

def Metrics.record (m : Metrics) : Json :=
  .obj [("instances", .ofNat m.instances), ("call_edges", .ofNat m.callEdges),
    ("unresolved_calls", .ofNat m.unresolvedCalls), ("roots", .ofNat m.roots),
    ("lock_paths", .ofNat m.lockPaths)]

inductive Verdict
  | skipped (reason : SkipReason)
  | analyzed (reports : List Report) (metrics : Metrics)
  deriving Repr, DecidableEq, Inhabited

namespace Verdict

def reports : Verdict → List Report
  | skipped _ => []
  | analyzed reports _ => reports

def skipText? : Verdict → Option String
  | skipped reason => some reason.text
  | analyzed _ _ => none

/-- The tally of an analyzed unit; a skipped one has none. -/
def stats : Verdict → Json
  | skipped _ => .obj []
  | analyzed reports _ => (Tally.ofReports reports).record

def metrics : Verdict → Json
  | skipped _ => .obj []
  | analyzed _ metrics => metrics.record

end Verdict

inductive AnalysisError
  | inconsistent (cause : Inconsistency)
  | graph (cause : CallGraph.Fault)
  /-- A recursive component has a name that is no text. -/
  | unlabelledRecursion
  | collect (cause : Walk.CollectError)
  | detect (cause : Detection.DetectError)
  deriving Repr

namespace AnalysisError

def message : AnalysisError → String
  | inconsistent cause => cause.message
  | graph cause => cause.message
  | unlabelledRecursion => "a recursive call cycle has no text"
  | collect cause => cause.message
  | detect cause => cause.message

end AnalysisError

structure Analysis where
  verdict : Verdict
  log : List LogRecord
  /-- The clock after the readings that were taken. -/
  clock : Walk.Clock

def analysisRecord (level : LogLevel) (message : String) : LogRecord :=
  { level, source := "lockguard.analysis", message }

def reportLog (unit : Name) (reports : List Report) : List LogRecord :=
  if reports.isEmpty then []
  else [analysisRecord .warning (Report.records reports).indented,
    (Tally.ofReports reports).summary unit]

def recursionLog (g : CallGraph) : Except AnalysisError (List LogRecord) :=
  match g.recursiveComponents.mapM Name.texts? with
  | none => .error .unlabelledRecursion
  | some components =>
    .ok (components.map fun c =>
      analysisRecord .debug ("recursive call cycle: " ++ " -> ".intercalate c))

def analyzeUnit (options : Options) (fuel : Nat) (clock : Walk.Clock) (p : Program) :
    Except AnalysisError Analysis := do
  p.check.mapError .inconsistent
  let graph ← (CallGraph.ofInstances p.instances).mapError .graph
  let recursion ← recursionLog graph
  let collection ← (Walk.collect graph options fuel clock p.roots).mapError .collect
  let detected ← (Detection.detect options collection.paths).mapError .detect
  return {
    verdict := .analyzed detected.reports {
      instances := graph.instances.length
      callEdges := graph.edges.length
      unresolvedCalls := graph.unresolved.length
      roots := p.roots.length
      lockPaths := collection.paths.length }
    log := CallGraph.buildLog p.instances ++ recursion ++ collection.log ++
      detected.log ++ reportLog p.unit detected.reports
    clock := collection.clock }

def analyze (options : Options) (fuel : Nat) (clock : Walk.Clock) (p : Program) :
    Except AnalysisError Analysis :=
  match skipReason? options p with
  | some reason =>
    .ok {
      verdict := .skipped reason
      log := [analysisRecord .debug ("skipping " ++ p.unit.display ++ ": " ++ reason.text)]
      clock }
  | none => analyzeUnit options fuel clock p

/-- More steps than a walk can take in any time that is waited for. -/
def ampleFuel : Nat := 1000000000000000

end LockAudit
