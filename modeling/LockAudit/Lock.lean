import LockAudit.Name

/-! # Locks, guards and aliasing

A lock is known only by how it is reached: as a static item, through a field path of some receiver, or
behind an indirection about which nothing more is known. Locks that may be the same fall into one alias
class, and within a class a tier says how sure that is.
-/

namespace LockAudit

inductive GuardKind
  | mutex
  | reentrantMutex
  | spinMutex
  | read
  | write
  deriving Repr, DecidableEq, Inhabited

namespace GuardKind

def name : GuardKind → String
  | mutex => "mutex"
  | reentrantMutex => "reentrant_mutex"
  | spinMutex => "spin_mutex"
  | read => "read"
  | write => "write"

def all : List GuardKind := [mutex, reentrantMutex, spinMutex, read, write]

def ofName? (s : String) : Option GuardKind :=
  all.find? fun k => k.name == s

/-- Several guards of this kind may be held at once. -/
def isShared (k : GuardKind) : Bool := k == read

/-- The thread that holds a guard of this kind may take another one. -/
def isReentrant (k : GuardKind) : Bool := k == reentrantMutex

end GuardKind

inductive LockSite
  /-- As a static item. -/
  | static
  /-- Through a field path of a receiver. -/
  | field
  /-- Behind an indirection. -/
  | heap
  deriving Repr, DecidableEq, Inhabited

namespace LockSite

def name : LockSite → String
  | static => "static"
  | field => "field"
  | heap => "heap"

def all : List LockSite := [static, field, heap]

def ofName? (s : String) : Option LockSite :=
  all.find? fun k => k.name == s

end LockSite

/-- What is known of the identity of a lock. Its site says which of the names count for aliasing; all of
them tell two descriptions apart. -/
structure Lock where
  site : LockSite
  /-- The static item, or the field path behind the receiver. -/
  name : Name := .str ""
  /-- The local through which a field is reached. -/
  receiver : Name := .null
  receiverType : Name := .null
  /-- The type of the lock, which is shown; for a lock behind an indirection it is all there is. -/
  lockType : Name := .str ""
  deriving Repr, DecidableEq, Inhabited

namespace Lock

def names (l : Lock) : List Name :=
  [l.name, l.receiver, l.receiverType, l.lockType]

def canonical (l : Lock) : Lock where
  site := l.site
  name := l.name.canonical
  receiver := l.receiver.canonical
  receiverType := l.receiverType.canonical
  lockType := l.lockType.canonical

def fieldText (owner path : Name) : Name :=
  .str ((owner.orElse (.str "_")).display ++ "." ++ path.display)

def heapText (lockType : Name) : Name :=
  .str ("<heap " ++ (lockType.orElse (.str "?")).display ++ ">")

def describe (l : Lock) : Name :=
  match l.site with
  | .static => l.name
  | .field => fieldText l.receiver l.name
  | .heap => heapText l.lockType

def classLabel (l : Lock) : Name :=
  match l.site with
  | .static => l.name
  | .field => fieldText l.receiverType l.name
  | .heap => heapText l.lockType

def classWords (l : Lock) : List Name :=
  match l.site with
  | .static => [.str "static", l.name]
  | .field => [.str "field", l.receiverType.orElse (.str ""), l.name]
  | .heap => [.str "heap", l.lockType]

end Lock

/-- The locks that may be one and the same: those with one static name, with one field path on one type
of receiver, or of one type behind an indirection. Its names are canonical. -/
inductive AliasClass
  | field (receiverType path : Name)
  | heap (lockType : Name)
  | static (name : Name)
  deriving Repr, DecidableEq, Inhabited

namespace AliasClass

def words : AliasClass → List Name
  | field receiverType path => [.str "field", receiverType, path]
  | heap lockType => [.str "heap", lockType]
  | static name => [.str "static", name]

instance : Ord AliasClass where
  compare := compareOn words

def mix (h : UInt64) (a : AliasClass) : UInt64 :=
  a.words.foldl Name.mix h

instance : Fingerprint AliasClass where
  fingerprint a := Fingerprint.finger (a.mix Fingerprint.seed)

instance : Ranked AliasClass where
  isPlain a := Ranked.isPlain a.words
  relate := Relation.on Ranked.relate words

end AliasClass

def Lock.aliasClass (l : Lock) : AliasClass :=
  match l.site with
  | .static => .static l.name.canonical
  | .field => .field (l.receiverType.orElse (.str "")).canonical l.name.canonical
  | .heap => .heap l.lockType.canonical

inductive AliasTier
  | exact
  | likely
  | unknown
  deriving Repr, DecidableEq, Inhabited

namespace AliasTier

def name : AliasTier → String
  | exact => "exact"
  | likely => "likely"
  | unknown => "unknown"

def all : List AliasTier := [exact, likely, unknown]

def ofName? (s : String) : Option AliasTier :=
  all.find? fun t => t.name == s

end AliasTier

/-- The tier at which two locks may be the same, if they are in one alias class. The receiver of a field
is a local of the function, so equal receivers are the same value only within one activation. -/
def Lock.tier? (first second : Lock) (sameActivation : Bool) : Option AliasTier :=
  if first.aliasClass ≠ second.aliasClass then none
  else match first.site with
    | .heap => some .unknown
    | .static => some .exact
    | .field =>
      if sameActivation && first.receiver != .null && first.receiver.equals second.receiver then
        some .exact
      else some .likely

end LockAudit
