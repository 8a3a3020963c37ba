import LockAudit.Location
import LockAudit.Lock

/-! # Lock paths

A lock path lists the lock events of one traversal from a root. A release points at the acquisition that
it ends by the position of that event on the path.
-/

namespace LockAudit

inductive LockOp
  | acquire
  | release
  deriving Repr, DecidableEq, Inhabited

namespace LockOp

def name : LockOp → String
  | acquire => "acquire"
  | release => "release"

def ofName? (s : String) : Option LockOp :=
  [acquire, release].find? fun o => o.name == s

end LockOp

structure Event where
  op : LockOp
  kind : GuardKind
  lock : Lock
  location : Location
  /-- The instance that runs the operation. -/
  inst : Name
  guard : Name
  /-- The instances on the call stack, the root first. -/
  chain : List Name
  /-- The position of the acquisition that a release ends. -/
  acquired : Option Int
  /-- The activation that runs the operation; each has its own number on a path. -/
  frame : Int
  deriving Repr, DecidableEq, Inhabited

namespace Event

def isAcquire (e : Event) : Bool :=
  e.op == .acquire

def aliasClass (e : Event) : AliasClass :=
  e.lock.aliasClass

def isKeyed (e : Event) : Bool :=
  e.lock.names.all Name.isKey && e.inst.isKey && e.guard.isKey && e.chain.all Name.isKey

def canonical (e : Event) : Event :=
  { e with
    lock := e.lock.canonical
    inst := e.inst.canonical
    guard := e.guard.canonical
    chain := e.chain.map Json.canonical }

/-- Events compare by the text of their location, then the operation, then the call chain. -/
instance : Ord Event where
  compare := compareLex (compareOn fun e => e.location.render)
    (compareLex (compareOn fun e => e.op.name) (compareOn chain))

instance : Ranked Event where
  isPlain e := Ranked.isPlain e.chain
  relate := Relation.lex (Relation.on Ranked.relate fun e => e.location.render)
    (Relation.lex (Relation.on Ranked.relate fun e => e.op.name)
      (Relation.on Ranked.relate chain))

def mix (h : UInt64) (e : Event) : UInt64 :=
  let h := Fingerprint.mix h e.location.line.natAbs.toUInt64
  let h := Fingerprint.mix h e.location.column.natAbs.toUInt64
  let h := Fingerprint.mix h e.frame.natAbs.toUInt64
  Name.mix (Fingerprint.mix h (e.acquired.getD (-1)).natAbs.toUInt64) e.inst

instance : Fingerprint (List Event) where
  fingerprint events := Fingerprint.finger (events.foldl mix Fingerprint.seed)

end Event

structure LockPath where
  root : Name
  events : List Event
  /-- Something on the way could not be tracked. -/
  degraded : Bool := false
  deriving Repr, DecidableEq, Inhabited

namespace LockPath

def hasAcquisition (p : LockPath) : Bool :=
  p.events.any Event.isAcquire

def isKeyed (p : LockPath) : Bool :=
  p.root.isKey && p.events.all Event.isKeyed

def canonical (p : LockPath) : LockPath :=
  { p with root := p.root.canonical, events := p.events.map Event.canonical }

/-- Paths compare by root, then by their events, and a tracked path stands before a degraded one. -/
instance : Ord LockPath where
  compare := compareLex (compareOn root) (compareLex (compareOn events) (compareOn degraded))

instance : Ranked LockPath where
  isPlain p := Ranked.isPlain p.root && Ranked.isPlain p.events
  relate := Relation.lex (Relation.on Ranked.relate root)
    (Relation.lex (Relation.on Ranked.relate events)
      (Relation.on Relation.ofOrd degraded))

instance : Fingerprint LockPath where
  fingerprint p := Fingerprint.fingerprint p.events

def sorted (paths : List LockPath) : List LockPath :=
  orderOn id paths

end LockPath

end LockAudit
