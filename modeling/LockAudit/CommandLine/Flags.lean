import LockAudit.CommandLine.Grammar
import LockAudit.CommandLine.ShellWords
import LockAudit.Number.Literal
import LockAudit.Options

/-! # Analysis flags

The flags that set the analysis options, on the command line or in the environment. A later flag replaces
an earlier one of the same name. A flag may be blank, which leaves its setting without a value.
-/

namespace LockAudit

inductive AnalysisFlag
  | detectorKind
  | blacklistMode
  | crateNameList
  | maxDepth
  | maxRevisits
  | maxPaths
  | maxCycleLength
  | workers
  | timeBudget
  deriving Repr, DecidableEq

namespace AnalysisFlag

def specs : List (OptionSpec AnalysisFlag) :=
  [{ flag := detectorKind, names := ["-k", "--detector-kind"], takesValue := true },
    { flag := blacklistMode, names := ["-b", "--blacklist-mode"], takesValue := false },
    { flag := crateNameList, names := ["-l", "--crate-name-list"], takesValue := true },
    { flag := maxDepth, names := ["--max-depth"], takesValue := true },
    { flag := maxRevisits, names := ["--max-revisits"], takesValue := true },
    { flag := maxPaths, names := ["--max-paths"], takesValue := true },
    { flag := maxCycleLength, names := ["--max-cycle-length"], takesValue := true },
    { flag := workers, names := ["--workers"], takesValue := true },
    { flag := timeBudget, names := ["--time-budget"], takesValue := true }]

end AnalysisFlag

structure FlagValues where
  detector : Option DetectorKind := some .deadlock
  blacklist : Bool := false
  crateNames : String := ""
  maxDepth : Option Int := some 16
  maxRevisits : Option Int := some 2
  maxPaths : Option Int := some 4096
  maxCycleLength : Option Int := some 4
  workers : Option Int := some 1
  timeBudget : Option (Option Number) := some none
  deriving Repr, DecidableEq, Inhabited

def intValue (names : List String) : Grammar.Given → Except GrammarError (Option Int)
  | .value text =>
    match Numeral.readInt text with
    | .ok n => .ok (some n)
    | .error _ => .error (.notAnInteger names text)
  | _ => .ok none

def realValue (names : List String) : Grammar.Given → Except GrammarError (Option Binary64)
  | .value text =>
    match Numeral.readReal? text with
    | some x => .ok (some x)
    | none => .error (.notANumber names text)
  | _ => .ok none

def detectorValue (names : List String) : Grammar.Given → Except GrammarError (Option DetectorKind)
  | .value text =>
    match DetectorKind.ofName? text with
    | some k => .ok (some k)
    | none => .error (.notAChoice names text ["deadlock"])
  | _ => .ok none

def textValue : Grammar.Given → String
  | .value text => text
  | _ => ""

namespace FlagValues

def set (v : FlagValues) (names : List String) (given : Grammar.Given) :
    AnalysisFlag → Except GrammarError FlagValues
  | .detectorKind => (detectorValue names given).map fun k => { v with detector := k }
  | .blacklistMode => .ok { v with blacklist := true }
  | .crateNameList => .ok { v with crateNames := textValue given }
  | .maxDepth => (intValue names given).map fun n => { v with maxDepth := n }
  | .maxRevisits => (intValue names given).map fun n => { v with maxRevisits := n }
  | .maxPaths => (intValue names given).map fun n => { v with maxPaths := n }
  | .maxCycleLength => (intValue names given).map fun n => { v with maxCycleLength := n }
  | .workers => (intValue names given).map fun n => { v with workers := n }
  | .timeBudget =>
    (realValue names given).map fun x => { v with timeBudget := x.map fun y => some (.real y) }

/-- The names in a list with commas between them, without blanks around them and without empty ones. -/
def splitNames (names : String) : List String :=
  ((Text.split ',' names).map Text.trim).filter fun n => !n.isEmpty

def settings (v : FlagValues) : Settings where
  detector := v.detector
  units := {
    mode := if v.blacklist then .black else .white
    names := (splitNames v.crateNames).map Json.str }
  maxDepth := v.maxDepth
  maxRevisits := v.maxRevisits
  maxPaths := v.maxPaths
  maxCycleLength := v.maxCycleLength
  workers := v.workers
  timeBudget := v.timeBudget

end FlagValues

namespace Flags

/-- Flags alone: there are no positional words and there is no help. -/
def grammar : Grammar AnalysisFlag :=
  { options := AnalysisFlag.specs, positional := false }

def setAll (v : FlagValues) (given : List (OptionSpec AnalysisFlag × Grammar.Given)) :
    Except GrammarError FlagValues :=
  given.foldlM (fun v g => v.set g.1.names g.2 g.1.flag) v

def parse (words : List String) : Except GrammarError FlagValues := do
  let scan := grammar.scan words
  let v ← setAll {} scan.given
  match scan.fault with
  | some e => throw e
  | none => if scan.unrecognized.isEmpty then return v else throw (.unrecognized scan.unrecognized)

end Flags

inductive FlagsError
  | grammar (words : List String) (cause : GrammarError)
  | setting (cause : SettingError)
  deriving Repr, DecidableEq

namespace FlagsError

def message : FlagsError → String
  | grammar words _ => "invalid LOCKGUARD_FLAGS: " ++ " ".intercalate words
  | setting cause => cause.message

end FlagsError

def environmentFlags (line : Option String) : Except ShellError (List String) :=
  ShellWords.split (line.getD "")

end LockAudit
