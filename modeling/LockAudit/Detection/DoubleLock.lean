import LockAudit.Detection.Finding

/-! # Double locks

A path that acquires a lock while it holds one of the same alias class may block itself. Occurrences at
the same two locations on locks of one class are one finding.
-/

namespace LockAudit.Detection

/-- Only an exact alias on a path that was fully tracked is probable, and only where neither guard is
reentrant and not both are shared. -/
def doubleLockPossibility (first second : GuardKind) (tier : AliasTier) (degraded : Bool) :
    Possibility :=
  if tier ≠ .exact || degraded then .possibly
  else if first.isReentrant || second.isReentrant then .possibly
  else if first.isShared && second.isShared then .possibly
  else .probably

structure DoubleLock where
  first : Event
  second : Event
  possibility : Possibility
  deriving Repr, DecidableEq, Inhabited

structure DoubleLockKey where
  first : Location
  second : Location
  lockClass : AliasClass
  deriving Repr, DecidableEq, Inhabited

instance : Ord DoubleLockKey where
  compare := compareLex (compareOn DoubleLockKey.first)
    (compareLex (compareOn DoubleLockKey.second) (compareOn DoubleLockKey.lockClass))

instance : Ranked DoubleLockKey where
  isPlain k := Ranked.isPlain k.lockClass
  relate := Relation.lex (Relation.on Relation.ofOrd DoubleLockKey.first)
    (Relation.lex (Relation.on Relation.ofOrd DoubleLockKey.second)
      (Relation.on Ranked.relate DoubleLockKey.lockClass))

namespace DoubleLock

def key (d : DoubleLock) : DoubleLockKey :=
  { first := d.first.location, second := d.second.location, lockClass := d.first.aliasClass }

def ofNesting? (degraded : Bool) (n : Nesting) : Option DoubleLock :=
  (n.first.event.lock.tier? n.second.event.lock n.sameActivation).map fun tier =>
    { first := n.first.event, second := n.second.event,
      possibility :=
        doubleLockPossibility n.first.event.kind n.second.event.kind tier degraded }

end DoubleLock

def doubleLocks (paths : List LockPath) : List DoubleLock :=
  paths.flatMap fun p => (nestings p).filterMap (DoubleLock.ofNesting? p.degraded)

def doubleLockReport? : List DoubleLock → Option Report
  | [] => none
  | d :: rest =>
    let all := d :: rest
    let chains := distinctChains (all.map fun o => o.second.chain)
    some (Report.make (mergedPossibility (all.map DoubleLock.possibility))
      (.doubleLock (diagnosis d.first d.second chains)))

def doubleLockReports (paths : List LockPath) : List Report :=
  (findings DoubleLock.key (doubleLocks paths)).filterMap doubleLockReport?

end LockAudit.Detection
