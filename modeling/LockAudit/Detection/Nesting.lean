import LockAudit.Path

/-! # Nested acquisitions

Replaying the events of a path tells which acquisitions are held at each point. An acquisition made while
another is held forms a nesting with it. A release whose acquisition is not held has no effect.
-/

namespace LockAudit.Detection

structure Holding where
  index : Nat
  event : Event
  deriving Repr, DecidableEq, Inhabited

/-- `second` was acquired while `first` was held. -/
structure Nesting where
  first : Holding
  second : Holding
  deriving Repr, DecidableEq, Inhabited

namespace Nesting

def sameActivation (n : Nesting) : Bool :=
  n.first.event.frame == n.second.event.frame && n.first.event.inst.equals n.second.event.inst

def firstClass (n : Nesting) : AliasClass :=
  n.first.event.aliasClass

def secondClass (n : Nesting) : AliasClass :=
  n.second.event.aliasClass

end Nesting

def endHolding (held : List Holding) : Option Int → List Holding
  | none => held
  | some i => held.eraseP fun h => Int.ofNat h.index == i

def replayStep (held : List Holding) (index : Nat) (e : Event) : List Holding :=
  match e.op with
  | .acquire => held ++ [{ index, event := e }]
  | .release => endHolding held e.acquired

def nestingsAt (held : List Holding) (index : Nat) (e : Event) : List Nesting :=
  match e.op with
  | .acquire => held.map fun h => { first := h, second := { index, event := e } }
  | .release => []

/-- The nestings of events, the first of which has position `index` and follows the holdings `held`. -/
def nestingsFrom (index : Nat) (held : List Holding) : List Event → List Nesting
  | [] => []
  | e :: es =>
    nestingsAt held index e ++ nestingsFrom (index + 1) (replayStep held index e) es

def nestings (p : LockPath) : List Nesting :=
  nestingsFrom 0 [] p.events

end LockAudit.Detection
