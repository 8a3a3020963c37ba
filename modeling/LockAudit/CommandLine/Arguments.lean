import LockAudit.CommandLine.Flags
import LockAudit.Log

/-! # Arguments of the command line

The analysis flags and the flags of the command line itself. Flags from the environment are defaults for
the analysis flags, so that what stands on the command line wins, flag by flag.
-/

namespace LockAudit.CommandLine

inductive Flag
  | help
  | output
  | json
  | ciMode
  | maxProbably
  | debug
  | quiet
  | version
  | analysis (flag : AnalysisFlag)
  deriving Repr, DecidableEq

namespace Flag

def ownSpecs : List (OptionSpec Flag) :=
  [{ flag := help, names := ["-h", "--help"], takesValue := false },
    { flag := output, names := ["--output", "-o"], takesValue := true },
    { flag := json, names := ["--json"], takesValue := true },
    { flag := ciMode, names := ["--ci-mode"], takesValue := false },
    { flag := maxProbably, names := ["--max-probably"], takesValue := true },
    { flag := debug, names := ["--debug"], takesValue := false },
    { flag := quiet, names := ["--quiet", "-q"], takesValue := false },
    { flag := version, names := ["--version"], takesValue := false }]

def specs : List (OptionSpec Flag) :=
  ownSpecs ++ AnalysisFlag.specs.map fun s =>
    { flag := analysis s.flag, names := s.names, takesValue := s.takesValue }

end Flag

def grammar : Grammar Flag :=
  { options := Flag.specs, positional := true }

structure Arguments where
  files : List String := []
  output : Option String := none
  json : Option String := none
  ciMode : Bool := false
  /-- How many probable findings are allowed; the flag may be blank. -/
  maxProbably : Option Int := some 0
  debug : Bool := false
  quiet : Bool := false
  flags : FlagValues := {}
  deriving Repr, DecidableEq, Inhabited

inductive Request
  | run (arguments : Arguments)
  | help
  | version
  | fault (cause : GrammarError)
  deriving Repr, DecidableEq

namespace Arguments

def set (a : Arguments) (names : List String) (given : Grammar.Given) :
    Flag → Except GrammarError Arguments
  | .help => .ok a
  | .version => .ok a
  | .output => .ok { a with output := some (textValue given) }
  | .json => .ok { a with json := some (textValue given) }
  | .ciMode => .ok { a with ciMode := true }
  | .maxProbably => (intValue names given).map fun n => { a with maxProbably := n }
  | .debug => .ok { a with debug := true }
  | .quiet => .ok { a with quiet := true }
  | .analysis flag => (a.flags.set names given flag).map fun v => { a with flags := v }

def setAll (a : Arguments) : List (OptionSpec Flag × Grammar.Given) → Request
  | [] => .run a
  | (spec, given) :: rest =>
    match spec.flag with
    | .help => .help
    | .version => .version
    | flag =>
      match a.set spec.names given flag with
      | .ok b => setAll b rest
      | .error e => .fault e

end Arguments

def request (defaults : FlagValues) (words : List String) : Request :=
  let scan := grammar.scan words
  match Arguments.setAll { flags := defaults } scan.given with
  | .run a =>
    match scan.fault with
    | some e => .fault e
    | none =>
      if scan.unrecognized.isEmpty then .run { a with files := scan.positional }
      else .fault (.unrecognized scan.unrecognized)
  | other => other

/-- A letter in capitals. Beyond ASCII only the characters count whose capitals are ASCII letters that
occur in the name of a level or attribute. -/
def capitals (c : Char) : List Char :=
  if c = 'ı' then ['I']
  else if c = 'ſ' then ['S']
  else if c = 'ﬅ' || c = 'ﬆ' then ['S', 'T']
  else [c.toUpper]

/-- Why the environment gives no level. The word may name something else that belongs to logging: the
usual format of a record, or the table of formats. -/
inductive LevelError
  | format
  | styles
  deriving Repr, DecidableEq

namespace LevelError

def message : LevelError → String
  | format => "Unknown level: '%(levelname)s:%(name)s:%(message)s'"
  | styles => "Level not an integer or a valid string"

end LevelError

def levelOf (word : String) : Except LevelError LogLevel :=
  match String.ofList (word.toList.flatMap capitals) with
  | "BASIC_FORMAT" => .error .format
  | "_STYLES" => .error .styles
  | name => .ok ((LogLevel.ofName? name).getD .warning)

/-- The level from which records are shown. The environment counts only where no flag says more. -/
def logLevel (a : Arguments) (word : Option String) : Except LevelError LogLevel :=
  if a.debug then .ok .debug
  else if a.quiet then .ok .error
  else
    match word with
    | none => .ok .warning
    | some w => levelOf w

end LockAudit.CommandLine
