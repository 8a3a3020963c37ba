import LockAudit.Json.Writer
import LockAudit.Log
import LockAudit.Report.Basic

/-! # Reports as records

The record of a report is an object with one field, named for the kind of the report. Tallies count
reports by kind and possibility.
-/

namespace LockAudit

namespace Diagnosis

def record (d : Diagnosis) : Json :=
  .obj [("first_lock", d.firstLock), ("first_lock_type", d.firstLockType),
    ("first_lock_span", d.firstLockSpan), ("second_lock", d.secondLock),
    ("second_lock_type", d.secondLockType), ("second_lock_span", d.secondLockSpan),
    ("callchains", .arr (d.chains.map Json.arr))]

end Diagnosis

namespace Report

def record (r : Report) : Json :=
  let diagnosis := match r.subject with
    | .doubleLock d => d.record
    | .conflictLock ds => .arr (ds.map Diagnosis.record)
  .obj [(r.kind, .obj [("bug_kind", .str r.kind), ("possibility", .str r.possibility.name),
    ("diagnosis", diagnosis), ("explanation", r.explanation)])]

def records (reports : List Report) : Json :=
  .arr (reports.map record)

end Report

structure Tally where
  doubleProbably : Nat
  doublePossibly : Nat
  conflictProbably : Nat
  conflictPossibly : Nat
  deriving Repr, DecidableEq, Inhabited

namespace Tally

def isDouble (r : Report) : Bool :=
  match r.subject with
  | .doubleLock _ => true
  | .conflictLock _ => false

def ofReports (reports : List Report) : Tally where
  doubleProbably := reports.countP fun r => isDouble r && r.isProbable
  doublePossibly := reports.countP fun r => isDouble r && !r.isProbable
  conflictProbably := reports.countP fun r => !isDouble r && r.isProbable
  conflictPossibly := reports.countP fun r => !isDouble r && !r.isProbable

def record (t : Tally) : Json :=
  .obj [("doublelock", .obj [("probably", .ofNat t.doubleProbably),
      ("possibly", .ofNat t.doublePossibly)]),
    ("conflictlock", .obj [("probably", .ofNat t.conflictProbably),
      ("possibly", .ofNat t.conflictPossibly)])]

def summary (unit : Name) (t : Tally) : LogRecord where
  level := .warning
  source := "lockguard.report"
  message := "unit " ++ unit.display ++
    s!" contains doublelock: \x7b probably: {t.doubleProbably}, " ++
    s!"possibly: {t.doublePossibly} \x7d, conflictlock: \x7b probably: {t.conflictProbably}, " ++
    s!"possibly: {t.conflictPossibly} \x7d"

end Tally

end LockAudit
