import LockAudit.Walk.Explore

/-! # Collecting the paths of all roots

The distinct roots are explored in ascending order. With a time budget, a root is left out when the clock
has passed the deadline at its turn; a root that is started contributes all its paths.
-/

namespace LockAudit.Walk

/-- Successive clock readings in seconds. The last one repeats, and without any the clock stands still. -/
structure Clock where
  readings : List Number := []
  deriving Repr, DecidableEq, Inhabited

namespace Clock

def reading (c : Clock) (i : Nat) : Number :=
  match c.readings[i]? with
  | some t => t
  | none => c.readings.getLast?.getD (.real Binary64.zero)

def after (c : Clock) (n : Nat) : Clock :=
  if n < c.readings.length then { readings := c.readings.drop n }
  else { readings := c.readings.getLast?.toList }

end Clock

inductive CollectError
  | missingRoots (roots : List String)
  /-- A root is missing and named by something other than a text, or it cannot be looked up, or the roots
  have no order. -/
  | strayRoot
  /-- A time is too large to be added to another. -/
  | timeOverflow
  | walk (fault : Fault)
  deriving Repr, DecidableEq

namespace CollectError

def message : CollectError → String
  | missingRoots roots => "analysis roots not in call graph: " ++ ", ".intercalate roots
  | strayRoot => "a root is not named by a text"
  | timeOverflow => "a time is out of range"
  | walk _ => "a walk could not go on"

end CollectError

structure Collection where
  paths : List LockPath
  log : List LogRecord
  /-- The clock after the readings that were taken. -/
  clock : Clock

def sortedRoots (roots : List Name) : List Name :=
  orderOn id (roots.eraseDupsBy Name.same)

def checkRoots (g : CallGraph) (roots : List Name) : Except CollectError Unit :=
  let missing := (sortedRoots roots).filter fun r => !g.contains r
  if !roots.all Name.isKey || !haveOrder (roots.eraseDupsBy Name.same) then .error .strayRoot
  else if missing.isEmpty then .ok ()
  else
    match Name.texts? missing with
    | some names => .error (.missingRoots names)
    | none => .error .strayRoot

/-- The moment after which no further root is started: the first reading and the budget. -/
def deadline (options : Options) (clock : Clock) : Except CollectError (Option Number) :=
  match options.timeBudget with
  | none => .ok none
  | some budget =>
    match (clock.reading 0).add? budget with
    | some t => .ok (some t)
    | none => .error .timeOverflow

/-- Whether the root at a position is left out. It has the reading after those of the roots before it. -/
def isLate (deadline : Option Number) (clock : Clock) (position : Nat) : Bool :=
  match deadline with
  | none => false
  | some t => t.lt (clock.reading (position + 1))

def startedRoots (deadline : Option Number) (clock : Clock) (roots : List Name) : List Name :=
  (roots.zipIdx.filter fun r => !isLate deadline clock r.2).map Prod.fst

def collectLog (roots skipped paths : Nat) : List LogRecord :=
  let late : List LogRecord :=
    if skipped = 0 then []
    else [{ level := .warning, source := "lockguard.lock_paths",
            message := s!"time budget exhausted: {skipped} of {roots} roots skipped" }]
  late ++ [{ level := .debug, source := "lockguard.lock_paths",
             message := s!"collected {paths} lock paths from {roots} roots" }]

def collect (g : CallGraph) (options : Options) (fuel : Nat) (clock : Clock) (roots : List Name) :
    Except CollectError Collection := do
  checkRoots g roots
  let roots := sortedRoots roots
  let deadline ← deadline options clock
  let started := startedRoots deadline clock roots
  let explorations ← (started.mapM (explore g options fuel)).mapError .walk
  let paths := explorations.flatMap fun e => LockPath.sorted e.paths
  return {
    paths
    log := explorations.flatMap Exploration.log ++
      collectLog roots.length (roots.length - started.length) paths.length
    clock := if options.timeBudget.isSome then clock.after (roots.length + 1) else clock }

end LockAudit.Walk
