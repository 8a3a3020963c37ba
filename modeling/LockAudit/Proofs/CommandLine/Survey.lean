import LockAudit.CommandLine.Run
import LockAudit.Proofs.Except
import LockAudit.Proofs.Name.Canonical

/-! # Files one after the other

What comes of a file depends on its text and on the clock, not on the files before it, so a session is
where a survey of the files by themselves leads. In CI mode the survey ends with the first file that is
missing or faulty.
-/

namespace LockAudit

namespace CommandLine

/-! ### Files by themselves -/

structure Inspection where
  file : String
  timing : FileTiming
  result : FileResult

namespace Inspection

def isFault (i : Inspection) : Bool :=
  match i.result with
  | .missing => true
  | .failed _ => true
  | .analyzed _ _ _ => false

def reports (i : Inspection) : List Report :=
  match i.result with
  | .analyzed _ verdict _ => verdict.reports
  | _ => []

def unit? (i : Inspection) : Option UnitResult :=
  match i.result with
  | .analyzed unit (.skipped reason) _ =>
    some { file := i.file, unit, verdict := .skipped reason, seconds := Binary64.zero }
  | .analyzed unit (.analyzed reports metrics) _ =>
    some { file := i.file, unit, verdict := .analyzed reports metrics, seconds := i.timing.seconds }
  | _ => none

def text? (i : Inspection) : Option String :=
  match i.result with
  | .analyzed unit (.analyzed reports _) _ => Report.text? unit reports i.timing.seconds i.timing.moment
  | _ => none

/-- The lines that tell how the session gets on. None of them is part of a report. -/
def progress (quiet : Bool) (i : Inspection) : List String :=
  if quiet then []
  else
    match i.result with
    | .missing => []
    | .analyzed unit (.skipped reason) _ =>
      [s!"Analyzing {i.file}...", "Skipped " ++ unit.display ++ ": " ++ reason.text]
    | _ => [s!"Analyzing {i.file}..."]

def notices (a : Arguments) (level : LogLevel) (i : Inspection) : List Notice :=
  match i.result with
  | .missing => [.line s!"Error: File not found: {i.file}"]
  | .failed reason =>
    .line s!"Error analyzing {i.file}: {reason}" :: if a.debug then [.trace] else []
  | .analyzed _ _ log => (logFrom level log).map .log

end Inspection

def HasTextChains (reports : List Report) : Prop :=
  ∀ r ∈ reports, ∀ d ∈ r.subject.diagnoses, ∀ chain ∈ d.chains, ∀ name ∈ chain, Name.isText name = true

instance : DecidablePred HasTextChains := fun reports => by
  delta HasTextChains
  infer_instance

def inspect (s : Session) (files : FileTree) (timing : Timing) (n : String × Nat) :
    Except Crash Inspection := do
  let path := PathName.parse n.1
  let contents ← (files.read path).mapError .file
  let result ← s.examine path.render contents (timing.file n.2).clock
  return { file := path.render, timing := timing.file n.2, result }

section Survey

variable {α : Type} {look : α → Except Crash Inspection} {ci : Bool} {names : List α}
  {found : List Inspection}

/-- Looks at files in order, in CI mode no further than the first fault. -/
def survey (look : α → Except Crash Inspection) (ci : Bool) : List α → Except Crash (List Inspection)
  | [] => .ok []
  | name :: names => do
    let i ← look name
    if ci && i.isFault then return [i]
    return i :: (← survey look ci names)

def SomeFault (look : α → Except Crash Inspection) (names : List α) : Prop :=
  ∃ name ∈ names, ∃ i, look name = .ok i ∧ i.isFault = true

end Survey

/-! ### Text reports -/

section TextReports

variable {reports : List Report} (h : HasTextChains reports)

include h

end TextReports

/-! ### Taking files -/

namespace Session

def advance (s : Session) (is : List Inspection) : Session :=
  { s with
    output := (is.flatMap (Inspection.progress s.arguments.quiet)).foldl (· ++ · ++ "\n") s.output
    notices := s.notices ++ is.flatMap (Inspection.notices s.arguments s.level)
    results := s.results ++ is.filterMap Inspection.unit?
    texts := s.texts ++ is.filterMap Inspection.text?
    stopped := s.arguments.ciMode && is.any Inspection.isFault }

end Session

section Directory

variable {s : Session} {files : FileTree} {timing : Timing}

end Directory

end CommandLine

/-! ### Names that are too long -/

end LockAudit
