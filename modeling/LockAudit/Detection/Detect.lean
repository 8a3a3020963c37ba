import LockAudit.Detection.Cycle
import LockAudit.Detection.DoubleLock
import LockAudit.Detection.Inversion
import LockAudit.Log
import LockAudit.Options

/-! # Deadlock detection

All reports of a set of lock paths: double locks, then order inversions, then longer order cycles. The
paths are taken without repetitions in their stable order. Paths that compare as equal stay in the order of
the set that they are in, for which the order of the list stands.
-/

namespace LockAudit.Detection

def prepare (paths : List LockPath) : List LockPath :=
  LockPath.sorted (distinctOn LockPath.canonical paths)

structure Evidence where
  /-- The distinct paths in their stable order. -/
  paths : List LockPath
  witnesses : List Witness
  /-- The longer order cycles, each with a witness for each edge. -/
  cycles : List (List AliasClass × List Witness)

def evidence (options : Options) (paths : List LockPath) (search : CycleSearch := simpleCycles) :
    Evidence :=
  let paths := prepare paths
  let ws := witnesses paths
  { paths
    witnesses := ws
    cycles :=
      if 3 ≤ options.maxCycleLength then spreadCycles ws options.maxCycleLength search else [] }

def Evidence.reports (e : Evidence) : List Report :=
  doubleLockReports e.paths ++ inversionReports e.witnesses ++
    e.cycles.map fun c => cycleReport c.2

def reports (options : Options) (paths : List LockPath) (search : CycleSearch := simpleCycles) :
    List Report :=
  (evidence options paths search).reports

/-! ### Names that cannot be handled -/

inductive DetectError
  /-- A name that has to be looked up is no key. -/
  | unkeyed
  /-- Paths, findings or order edges have no order. -/
  | unordered
  /-- A cycle goes through a lock whose name is no text. -/
  | unlabelled
  deriving Repr, DecidableEq

def DetectError.message : DetectError → String
  | unkeyed => "a name cannot be looked up"
  | unordered => "findings cannot be put in order"
  | unlabelled => "a cycle has no text"

def isPlain (p : LockPath) : Bool :=
  Ranked.isPlain p && p.events.all fun e => Ranked.isPlain e.aliasClass

/-- Whether the paths and the findings among them have an order: the paths, the double locks, the classes
of each order edge, the inversions and, where cycles are looked for, the order edges. -/
def Evidence.isOrdered (options : Options) (e : Evidence) : Bool :=
  let edges := orderEdges e.witnesses
  haveOrder e.paths &&
    (findings? DoubleLock.key (doubleLocks e.paths)).isSome &&
    edges.all (fun e => Ranked.relate e.1 e.2 != .alien) &&
    (findings? Inversion.key (inversions e.witnesses)).isSome &&
    (options.maxCycleLength < 3 || haveOrder (edges.map edgeClasses))

def hasText : AliasClass → Bool
  | .static name => name.isText
  | _ => true

def fault? (options : Options) (paths : List LockPath) (search : CycleSearch := simpleCycles) :
    Option DetectError :=
  if !paths.all LockPath.isKeyed then some .unkeyed
  else if paths.all isPlain then none
  else
    let e := evidence options paths search
    if !e.isOrdered options then some .unordered
    else if e.cycles.all fun c => c.1.all hasText then none
    else some .unlabelled

/-! ### The log -/

def debugRecord (message : String) : LogRecord :=
  { level := .debug, source := "lockguard.detector", message }

def inversionLine (known : WitnessIndex) (e : AliasClass × AliasClass) : String :=
  match (known.withKey e).head? with
  | none => ""
  | some w => "lock order inversion: " ++ w.first.lock.classLabel.display ++ " <-> " ++
      w.second.lock.classLabel.display

def labelAfter (known : WitnessIndex) (e : AliasClass × AliasClass) : String :=
  match (known.withKey e).head? with
  | none => ""
  | some w => w.second.lock.classLabel.display

def cycleLine (known : WitnessIndex) (cycle : List AliasClass) : String :=
  let labels := (cycleEdges cycle).map (labelAfter known)
  let last := cycle.length - 1
  "lock order cycle: " ++ " -> ".intercalate (labels.drop last ++ labels.take last)

/-- What detection logs: the numbers of paths and classes, the inverted orders by their first witness,
and the cycles by their text. -/
def Evidence.log (e : Evidence) : List LogRecord :=
  let classes := distinct (e.paths.flatMap fun p => p.events.map Event.aliasClass)
  let known := witnessIndex e.witnesses
  let inverted := (invertedEdges e.witnesses).map (inversionLine known)
  let longer := e.cycles.map fun c => cycleLine known c.1
  (s!"{e.paths.length} lock paths over {classes.length} alias classes" ::
    inverted ++ sortOn id longer).map debugRecord

/-! ### Detection -/

structure Detected where
  reports : List Report
  log : List LogRecord

def detect (options : Options) (paths : List LockPath) (search : CycleSearch := simpleCycles) :
    Except DetectError Detected :=
  match fault? options paths search with
  | some f => .error f
  | none =>
    let e := evidence options paths search
    .ok { reports := e.reports, log := e.log }

end LockAudit.Detection
