import LockAudit.Name

/-! # Analysis options

Settings are what a user asks for, options are settings that passed the checks: every setting has a value,
every bound is positive, a cycle has at least two locks, and a time budget is not zero or less.
-/

namespace LockAudit

inductive DetectorKind
  | deadlock
  deriving Repr, DecidableEq, Inhabited

namespace DetectorKind

def name : DetectorKind → String
  | deadlock => "deadlock"

def ofName? (s : String) : Option DetectorKind :=
  [deadlock].find? fun k => k.name == s

end DetectorKind

inductive ListMode
  | white
  | black
  deriving Repr, DecidableEq, Inhabited

namespace ListMode

def name : ListMode → String
  | white => "white"
  | black => "black"

def ofName? (s : String) : Option ListMode :=
  [white, black].find? fun m => m.name == s

end ListMode

structure UnitFilter where
  mode : ListMode := .white
  names : List Name := []
  deriving Repr, DecidableEq, Inhabited

/-- Whether a unit is left out. An empty white list leaves out nothing. -/
def UnitFilter.excludes (f : UnitFilter) (unit : Name) : Bool :=
  match f.mode with
  | .white => !f.names.isEmpty && !f.names.any unit.same
  | .black => f.names.any unit.same

/-- What is asked for; a setting may have been given without its value. -/
structure Settings where
  detector : Option DetectorKind := some .deadlock
  units : UnitFilter := {}
  maxDepth : Option Int := some 16
  maxRevisits : Option Int := some 2
  maxPaths : Option Int := some 4096
  maxCycleLength : Option Int := some 4
  workers : Option Int := some 1
  /-- There may be no budget at all. -/
  timeBudget : Option (Option Number) := some none
  deriving Repr, DecidableEq, Inhabited

structure Options where
  detector : DetectorKind := .deadlock
  units : UnitFilter := {}
  /-- Calls at this depth of the stack are not followed. -/
  maxDepth : Nat := 16
  /-- How often one block of an activation is entered, and one instance active, on a path. -/
  maxRevisits : Nat := 2
  /-- How many paths of one root are kept. -/
  maxPaths : Nat := 4096
  /-- How many locks a reported lock-order cycle has at most. -/
  maxCycleLength : Nat := 4
  workers : Nat := 1
  /-- Seconds after which no further root is started. -/
  timeBudget : Option Number := none
  one_le_maxDepth : 1 ≤ maxDepth := by decide
  one_le_maxRevisits : 1 ≤ maxRevisits := by decide
  one_le_maxPaths : 1 ≤ maxPaths := by decide
  two_le_maxCycleLength : 2 ≤ maxCycleLength := by decide

inductive SettingError
  | noDetector
  /-- A number is wanted and there is no value. -/
  | noNumber (name : String)
  | tooSmall (name : String) (least : Nat)
  | budgetNotPositive
  deriving Repr, DecidableEq

namespace SettingError

def message : SettingError → String
  | noDetector => "[] is not a valid DetectorKind"
  | noNumber name => s!"{name} has no value"
  | tooSmall name least => s!"{name} must be at least {least}"
  | budgetNotPositive => "time_budget must be positive"

/-- Whether a fault is told to the user as one of the settings; a missing value ends the program. -/
def isReported : SettingError → Bool
  | noDetector => false
  | noNumber _ => false
  | _ => true

end SettingError

def atLeast (name : String) (least : Nat) (value : Option Int) :
    Except SettingError { n : Nat // least ≤ n } :=
  match value with
  | none => .error (.noNumber name)
  | some i =>
    if h : Int.ofNat least ≤ i then .ok ⟨i.toNat, Int.toNat_le_toNat h⟩
    else .error (.tooSmall name least)

def positiveBudget : Option (Option Number) → Except SettingError (Option Number)
  | none => .error (.noNumber "time_budget")
  | some none => .ok none
  | some (some budget) =>
    if budget.le (.whole 0) then .error .budgetNotPositive else .ok (some budget)

def Settings.check (s : Settings) : Except SettingError Options := do
  let detector ← match s.detector with
    | some d => pure d
    | none => throw .noDetector
  let depth ← atLeast "max_depth" 1 s.maxDepth
  let revisits ← atLeast "max_revisits" 1 s.maxRevisits
  let paths ← atLeast "max_paths" 1 s.maxPaths
  let workers ← atLeast "workers" 1 s.workers
  let cycle ← atLeast "max_cycle_length" 2 s.maxCycleLength
  let timeBudget ← positiveBudget s.timeBudget
  return {
    detector
    units := s.units
    maxDepth := depth.val
    maxRevisits := revisits.val
    maxPaths := paths.val
    maxCycleLength := cycle.val
    workers := workers.val
    timeBudget
    one_le_maxDepth := depth.property
    one_le_maxRevisits := revisits.property
    one_le_maxPaths := paths.property
    two_le_maxCycleLength := cycle.property }

end LockAudit
