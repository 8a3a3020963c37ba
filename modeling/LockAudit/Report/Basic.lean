import LockAudit.Name

/-! # Reports

A report says which acquisitions may block each other, how sure that is, and by which call chains they
are reached.
-/

namespace LockAudit

inductive Possibility
  | probably
  | possibly
  deriving Repr, DecidableEq, Inhabited

namespace Possibility

def name : Possibility → String
  | probably => "Probably"
  | possibly => "Possibly"

def ofName? (s : String) : Option Possibility :=
  [probably, possibly].find? fun p => p.name == s

end Possibility

/-- Two acquisitions, the second made while the first was held, and the call chains of the second. -/
structure Diagnosis where
  firstLock : Name
  firstLockType : Name
  firstLockSpan : Name
  secondLock : Name
  secondLockType : Name
  secondLockSpan : Name
  chains : List (List Name)
  deriving Repr, DecidableEq, Inhabited

/-- What is reported: a lock acquired while it is held, or locks acquired in orders that may wait for
each other. -/
inductive Subject
  | doubleLock (diagnosis : Diagnosis)
  | conflictLock (diagnoses : List Diagnosis)
  deriving Repr, DecidableEq, Inhabited

namespace Subject

def kind : Subject → String
  | doubleLock _ => "DoubleLock"
  | conflictLock _ => "ConflictLock"

def diagnoses : Subject → List Diagnosis
  | doubleLock d => [d]
  | conflictLock ds => ds

def explanation : Subject → Name
  | doubleLock _ => .str "The first lock is not released when acquiring the second lock"
  | conflictLock _ => .str "Locks mutually wait for each other to form a cycle"

end Subject

structure Report where
  possibility : Possibility
  subject : Subject
  explanation : Name
  deriving Repr, DecidableEq, Inhabited

namespace Report

def make (possibility : Possibility) (subject : Subject) : Report :=
  { possibility, subject, explanation := subject.explanation }

def isProbable (r : Report) : Bool :=
  r.possibility == .probably

def kind (r : Report) : String :=
  r.subject.kind

end Report

end LockAudit
