import LockAudit.Detection.Finding
import LockAudit.FingerprintIndex

/-! # Lock order

A path orders class `A` before class `B` when it acquires a lock of `B` while it holds one of `A`. The
first such nesting on a path is its witness.
-/

namespace LockAudit.Detection

structure Witness where
  path : Nat
  /-- Something on the path could not be tracked. -/
  degraded : Bool
  nesting : Nesting
  deriving Repr, DecidableEq, Inhabited

namespace Witness

def first (w : Witness) : Event :=
  w.nesting.first.event

def second (w : Witness) : Event :=
  w.nesting.second.event

def edge (w : Witness) : AliasClass × AliasClass :=
  (w.nesting.firstClass, w.nesting.secondClass)

end Witness

instance : Fingerprint (AliasClass × AliasClass) where
  fingerprint e := Fingerprint.finger (e.2.mix (e.1.mix Fingerprint.seed))

def pathWitnesses (path : Nat) (p : LockPath) : List Witness :=
  let ordered := (nestings p).filter fun n => n.firstClass ≠ n.secondClass
  let firsts := distinctOn (fun n => (n.firstClass, n.secondClass)) ordered
  firsts.map fun nesting => { path, degraded := p.degraded, nesting }

def witnesses (paths : List LockPath) : List Witness :=
  paths.zipIdx.flatMap fun p => pathWitnesses p.2 p.1

def orderEdges (ws : List Witness) : List (AliasClass × AliasClass) :=
  distinct (ws.map Witness.edge)

def edgeClasses (e : AliasClass × AliasClass) : List AliasClass :=
  [e.1, e.2]

abbrev WitnessIndex := FingerprintIndex (AliasClass × AliasClass) Witness

def witnessIndex (ws : List Witness) : WitnessIndex :=
  FingerprintIndex.ofList Witness.edge ws

theorem withKey_witnessIndex (ws : List Witness) (e : AliasClass × AliasClass) :
    (witnessIndex ws).withKey e = ws.filter fun w => w.edge = e :=
  FingerprintIndex.withKey_ofList _ _ _

def surelyWaits (w next : Witness) : Bool :=
  let waiter := w.second
  let holder := next.first
  let sameActivation :=
    w.path == next.path && holder.frame == waiter.frame && holder.inst.equals waiter.inst
  holder.lock.tier? waiter.lock sameActivation == some .exact && !w.degraded &&
    !(holder.kind.isShared && waiter.kind.isShared)

/-- Whether each of `w :: ws` surely waits for the one after it, and the last for `head`. -/
def waitsAround (head : Witness) : Witness → List Witness → Bool
  | w, [] => surelyWaits w head
  | w, next :: rest => surelyWaits w next && waitsAround head next rest

/-- A cycle of witnesses is probable where each surely waits for the next one, around. -/
def conflictPossibility : List Witness → Possibility
  | [] => .probably
  | w :: ws => if waitsAround w w ws then .probably else .possibly

end LockAudit.Detection
