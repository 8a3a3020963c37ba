/-! # Log records

Each stage of the analysis yields, beside its result, the records that it logs, in order.
-/

namespace LockAudit

inductive LogLevel
  | notSet
  | debug
  | info
  | warning
  | error
  | critical
  deriving Repr, DecidableEq, Inhabited

namespace LogLevel

def name : LogLevel → String
  | notSet => "NOTSET"
  | debug => "DEBUG"
  | info => "INFO"
  | warning => "WARNING"
  | error => "ERROR"
  | critical => "CRITICAL"

def rank : LogLevel → Nat
  | notSet => 0
  | debug => 10
  | info => 20
  | warning => 30
  | error => 40
  | critical => 50

def ofName? : String → Option LogLevel
  | "NOTSET" => some notSet
  | "DEBUG" => some debug
  | "INFO" => some info
  | "WARNING" => some warning
  | "WARN" => some warning
  | "ERROR" => some error
  | "CRITICAL" => some critical
  | "FATAL" => some critical
  | _ => none

end LogLevel

structure LogRecord where
  level : LogLevel
  source : String
  message : String
  deriving Repr, DecidableEq, Inhabited

def logFrom (least : LogLevel) (log : List LogRecord) : List LogRecord :=
  log.filter fun r => least.rank ≤ r.level.rank

end LockAudit
