import LockAudit.CommandLine.Run
import LockAudit.Proofs.Except
import Mathlib.Data.List.Forall2

/-! # Which flag counts

An analysis flag may be given several times, on the command line and in the environment. The last time on
the command line counts; without one the last in the environment does, and without that the default. So it
is for each flag by itself, whatever is given with the others.
-/

namespace LockAudit

inductive FlagSetting
  | detector (kind : Option DetectorKind)
  | switch (on : Bool)
  | text (value : String)
  | integer (value : Option Int)
  | budget (value : Option (Option Number))
  deriving DecidableEq

def FlagValues.setting (v : FlagValues) : AnalysisFlag → FlagSetting
  | .detectorKind => .detector v.detector
  | .blacklistMode => .switch v.blacklist
  | .crateNameList => .text v.crateNames
  | .maxDepth => .integer v.maxDepth
  | .maxRevisits => .integer v.maxRevisits
  | .maxPaths => .integer v.maxPaths
  | .maxCycleLength => .integer v.maxCycleLength
  | .workers => .integer v.workers
  | .timeBudget => .budget v.timeBudget

structure Occurrence where
  flag : AnalysisFlag
  names : List String
  given : Grammar.Given
  deriving DecidableEq

namespace Occurrence

def setting (o : Occurrence) : Except GrammarError FlagSetting :=
  match o.flag with
  | .detectorKind => (detectorValue o.names o.given).map .detector
  | .blacklistMode => .ok (.switch true)
  | .crateNameList => .ok (.text (textValue o.given))
  | .timeBudget =>
    (realValue o.names o.given).map fun x => .budget (x.map fun y => some (.real y))
  | _ => (intValue o.names o.given).map .integer

def set (v : FlagValues) (o : Occurrence) : Except GrammarError FlagValues :=
  v.set o.names o.given o.flag

/-- The value of the flag is that of an occurrence, or, where there is none, the value before. -/
def Decides (before after : FlagValues) (flag : AnalysisFlag) : Option Occurrence → Prop
  | some o => o.setting = .ok (after.setting flag)
  | none => after.setting flag = before.setting flag

theorem Decides.trans {u v w : FlagValues} {flag : AnalysisFlag} {x y : Option Occurrence}
    (hx : Decides u v flag x) (hy : Decides v w flag y) : Decides u w flag (y.or x) := by
  cases y with
  | some o => exact hy
  | none =>
    have heq : w.setting flag = v.setting flag := hy
    cases x with
    | some o => exact (show o.setting = .ok (v.setting flag) from hx).trans (congrArg _ heq.symm)
    | none => exact heq.trans hx

end Occurrence

/-! ### Flags in the environment -/

namespace CommandLine

/-! ### Flags on the command line -/

namespace Arguments

end Arguments

end CommandLine

/-! ### Lists of names -/

namespace CommandLine

end CommandLine

end LockAudit
