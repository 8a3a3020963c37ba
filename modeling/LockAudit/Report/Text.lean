import LockAudit.Number.Decimal
import LockAudit.Report.Basic

/-! # The text report

The reports of one unit as text: a heading, a summary, and a section for each kind of report that was
found. A call chain is written only where all its names are texts.
-/

namespace LockAudit.Report

def rule (width : Nat) (c : Char) : String :=
  String.ofList (List.replicate width c)

def executiveSummary (reports : List Report) : String :=
  let probable := (reports.filter isProbable).length
  if reports.isEmpty then "✅ NO DEADLOCK PATTERNS DETECTED"
  else if probable ≠ 0 then s!"🚨 {probable} PROBABLE DEADLOCK(S) REQUIRE ATTENTION"
  else s!"ℹ️  {reports.length} possible deadlock(s) detected - review recommended."

def lockLine (lock type span : Name) : String :=
  "   📍 " ++ lock.display ++ " (" ++ type.display ++ ") at " ++ span.display

def chainLine? (chain : List Name) : Option String :=
  (Name.texts? chain).map fun names => "   ↳ " ++ " -> ".intercalate names

def diagnosisLines? (d : Diagnosis) : Option (List String) :=
  (d.chains.mapM chainLine?).map fun chains =>
    lockLine d.firstLock d.firstLockType d.firstLockSpan ::
      lockLine d.secondLock d.secondLockType d.secondLockSpan :: chains

def itemLines? (number : Nat) (r : Report) : Option (List String) :=
  (r.subject.diagnoses.mapM diagnosisLines?).map fun diagnoses =>
    (s!"{number}. [{r.possibility.name}] " ++ r.explanation.display) :: diagnoses.flatten ++ [""]

def kindSection? (kind heading : String) (reports : List Report) : Option (List String) :=
  let found := reports.filter fun r => r.kind == kind
  if found.isEmpty then some []
  else
    ((found.zipIdx 1).mapM fun r => itemLines? r.2 r.1).map fun items =>
      ["\n🔒 " ++ heading, rule 50 '-'] ++ items.flatten

/-- The text report of a unit, with the time that its analysis took and the moment of writing. There is
none where a call chain cannot be written. -/
def text? (unit : Name) (reports : List Report) (seconds : Binary64) (moment : String) :
    Option String := do
  let doubleLocks ← kindSection? "DoubleLock" "DOUBLELOCK" reports
  let conflictLocks ← kindSection? "ConflictLock" "CONFLICTLOCK" reports
  let lines :=
    [rule 100 '=', "LockGuard Deadlock Analysis Report", rule 100 '=', "Unit: " ++ unit.display,
      "Analysis Time: " ++ seconds.fixed 3 ++ " seconds", s!"Generated: {moment}",
      "\n🔍 EXECUTIVE SUMMARY", rule 50 '-', executiveSummary reports] ++
    doubleLocks ++ conflictLocks ++ ["\n" ++ rule 100 '=']
  return "\n".intercalate lines

end LockAudit.Report
