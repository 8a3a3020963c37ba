import LockAudit.Analysis
import LockAudit.CommandLine.Arguments
import LockAudit.CommandLine.Files
import LockAudit.Json.Reader
import LockAudit.Program.Document
import LockAudit.Report.Text

/-! # Command line sessions

A session takes the named files one after the other and then writes what is asked for: the text reports,
the JSON document, and in CI mode a verdict. A missing or faulty file is passed over, but ends a session
in CI mode.
-/

namespace LockAudit.CommandLine

def versionText : String := "0.3.0"

inductive Notice
  /-- A complaint about the arguments of a program, which its usage stands before. -/
  | usage (program complaint : String)
  | line (text : String)
  | log (record : LogRecord)
  /-- The trace of the error before it. -/
  | trace
  deriving Repr, DecidableEq, Inhabited

structure Outcome where
  exit : Nat
  /-- The arguments alone decided, before anything was done. -/
  byArguments : Bool := false
  output : String := ""
  notices : List Notice := []
  /-- The files that were written, with their text. -/
  written : List (List String × String) := []
  deriving Repr, Inhabited

inductive Crash
  | environment (cause : ShellError)
  | level (cause : LevelError)
  | setting (cause : SettingError)
  | numeral (cause : NumeralError)
  /-- A document is nested too deep. -/
  | tooDeep
  | program (cause : ProgramError)
  | analysis (cause : AnalysisError)
  | file (cause : FileError)
  /-- A call chain cannot be written. -/
  | unwritable
  /-- A text that is to be written to a file is not one of whole characters. -/
  | unencodable
  /-- In CI mode, no number is given for the probable findings that are allowed. -/
  | noThreshold
  deriving Repr

namespace Crash

def message : Crash → String
  | environment e => e.message
  | level e => e.message
  | setting e => e.message
  | numeral e => e.message
  | tooDeep => "a document is nested too deep"
  | program e => e.message
  | analysis e => e.message
  | file e => e.message
  | unwritable => "a call chain cannot be written"
  | unencodable => "a text report holds a lone surrogate"
  | noThreshold => "max_probably has no value"

end Crash

/-- Readings of the clocks for one file: those that the analysis takes while it runs, how long it ran, and
the moment of its text report. -/
structure FileTiming where
  clock : Walk.Clock := {}
  seconds : Binary64 := Binary64.zero
  moment : String := ""
  deriving Repr, Inhabited

structure UnitResult where
  file : String
  unit : Name
  verdict : Verdict
  seconds : Binary64
  deriving Repr, Inhabited

namespace UnitResult

def record (r : UnitResult) : Json :=
  .obj [("file", .str r.file), ("unit", r.unit), ("skipped", .ofText? r.verdict.skipText?),
    ("stats", r.verdict.stats), ("metrics", r.verdict.metrics),
    ("reports", Report.records r.verdict.reports), ("analysis_time", .real r.seconds)]

end UnitResult

inductive FileResult
  | missing
  /-- The file could not be analyzed, for the reason that is shown. -/
  | failed (reason : String)
  | analyzed (unit : Name) (verdict : Verdict) (log : List LogRecord)

def analyzeText (options : Options) (file text : String) (clock : Walk.Clock) :
    Except Crash FileResult :=
  match Json.read text with
  | .error (.malformed left) => .ok (.failed (file ++ s!": invalid JSON: {left} characters left"))
  | .error (.numeral e) => .error (.numeral e)
  | .error .tooDeep => .error .tooDeep
  | .ok document =>
    match Program.ofDocument document with
    | .error e => if e.isReported then .ok (.failed e.message) else .error (.program e)
    | .ok p =>
      match analyze options ampleFuel clock p with
      | .error e => .error (.analysis e)
      | .ok a => .ok (.analyzed p.unit a.verdict a.log)

structure Session where
  arguments : Arguments
  level : LogLevel
  options : Options
  output : String := ""
  notices : List Notice := []
  results : List UnitResult := []
  texts : List String := []
  /-- A file was missing or faulty in CI mode. -/
  stopped : Bool := false

namespace Session

def print (s : Session) (line : String) : Session :=
  { s with output := s.output ++ line ++ "\n" }

def tell (s : Session) (line : String) : Session :=
  if s.arguments.quiet then s else s.print line

def notice (s : Session) (ns : List Notice) : Session :=
  { s with notices := s.notices ++ ns }

def add (s : Session) (result : UnitResult) : Session :=
  { s with results := s.results ++ [result] }

def fail (s : Session) : Session :=
  { s with stopped := s.arguments.ciMode }

def probable (s : Session) : Nat :=
  (s.results.flatMap fun r => r.verdict.reports).countP Report.isProbable

def examine (s : Session) (file : String) (contents : Contents) (clock : Walk.Clock) :
    Except Crash FileResult :=
  match contents with
  | .missing => .ok .missing
  | .unreadable reason => .ok (.failed reason)
  | .text text => analyzeText s.options file text clock

/-- Takes in what came of a file. The time that it took to skip a unit is not told. -/
def absorb (s : Session) (file : String) (timing : FileTiming) : FileResult → Except Crash Session
  | .missing => .ok (s.notice [.line s!"Error: File not found: {file}"]).fail
  | .failed reason =>
    let complaint := Notice.line s!"Error analyzing {file}: {reason}"
    let s := s.tell s!"Analyzing {file}..."
    .ok (s.notice (complaint :: if s.arguments.debug then [.trace] else [])).fail
  | .analyzed unit verdict log =>
    let s := (s.tell s!"Analyzing {file}...").notice ((logFrom s.level log).map .log)
    match verdict with
    | .skipped reason =>
      let s := s.add { file, unit, verdict, seconds := Binary64.zero }
      .ok (s.tell ("Skipped " ++ unit.display ++ ": " ++ reason.text))
    | .analyzed reports _ =>
      let s := s.add { file, unit, verdict, seconds := timing.seconds }
      match Report.text? unit reports timing.seconds timing.moment with
      | some text => .ok { s with texts := s.texts ++ [text] }
      | none => .error .unwritable

def document (s : Session) (timestamp : String) : Json :=
  .obj [
    ("analysis_summary", .obj [("total_files", .ofNat s.results.length),
      ("total_probably", .ofNat s.probable), ("analysis_timestamp", .str timestamp),
      ("lockguard_version", .str versionText)]),
    ("units", .arr (s.results.map UnitResult.record))]

/-- A file name that was given and is not empty. -/
def wanted? (name : Option String) : Option String :=
  name.filter fun n => !n.isEmpty

def giveTexts (s : Session) : Session × List (String × String) :=
  if s.texts.isEmpty then (s, [])
  else
    let text := "\n".intercalate s.texts
    match wanted? s.arguments.output with
    | some name => (s.tell s!"Report saved to {name}", [(name, text)])
    | none => (s.print text, [])

def giveDocument (s : Session) (timestamp : String) : Session × List (String × String) :=
  match wanted? s.arguments.json with
  | some name =>
    if s.results.isEmpty then (s, [])
    else (s.tell s!"JSON report saved to {name}", [(name, (s.document timestamp).indented)])
  | none => (s, [])

/-- What is written at the end of a session, by name; a session that has stopped writes nothing. -/
def give (s : Session) (timestamp : String) : Session × List (String × String) :=
  if s.stopped then (s, [])
  else
    let (s, texts) := s.giveTexts
    let (s, documents) := s.giveDocument timestamp
    (s, texts ++ documents)

def judge (s : Session) : Except Crash (Session × Nat) :=
  match s.arguments.maxProbably with
  | none => .error .noThreshold
  | some allowed =>
    if allowed < Int.ofNat s.probable then
      .ok (s.print (s!"❌ CI FAILURE: {s.probable} probable deadlocks found " ++
        s!"(max allowed: {allowed})"), 1)
    else .ok (s.print "✅ CI PASSED: No probable deadlocks above threshold", 0)

def conclude (s : Session) : Except Crash (Session × Nat) :=
  if s.stopped then .ok (s, 3)
  else if s.arguments.ciMode then s.judge
  else .ok (s, 0)

def finish (s : Session) (written : List (List String × String)) : Except Crash Outcome := do
  let (s, exit) ← s.conclude
  return { exit, output := s.output, notices := s.notices, written }

end Session

end LockAudit.CommandLine
