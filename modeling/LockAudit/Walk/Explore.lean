import LockAudit.Walk.Step

/-! # Exploring the paths of a root

The states that follow jumps and calls are explored depth first. A state whose key was met before is
dropped. The exploration of a root is cut short when enough paths are found, or when far more states were
started than paths may be kept.
-/

namespace LockAudit.Walk

/-! ### Keys met before -/

open Fingerprint

def mixFrame (h : UInt64) (f : Frame) : UInt64 :=
  Name.mix (Name.mix (mix h f.number.toUInt64) (f.block.getD .null)) f.inst

def mixHeld (h : UInt64) (k : Held) : UInt64 :=
  mix (mix h k.frame.toUInt64) k.index.toUInt64

def mixVisit (h : UInt64) (v : (Nat × Target) × Nat) : UInt64 :=
  mix (Name.mix (mix h v.1.1.toUInt64) v.1.2) v.2.toUInt64

instance : Fingerprint Key where
  fingerprint k :=
    let h := k.events.foldl Event.mix seed
    let h := k.held.foldl mixHeld (k.frames.foldl mixFrame h)
    finger (k.visits.foldl mixVisit h)

abbrev Seen := FingerprintSet Key

/-- The states among `children` whose keys are new, each at its place; their keys are new no more. -/
def sift (seen : Seen) : List State → Except Fault (Seen × List (Option State))
  | [] => .ok (seen, [])
  | c :: cs =>
    match c.key? with
    | none => .error .unkeyed
    | some key =>
      if seen.contains key then (sift seen cs).map fun r => (r.1, none :: r.2)
      else (sift (seen.insert key) cs).map fun r => (r.1, some c :: r.2)

/-! ### One traversal -/

structure Trace where
  events : List Event
  degraded : Bool
  deriving Repr, DecidableEq, Inhabited

def State.trace (s : State) : Trace :=
  { events := s.events, degraded := s.degraded }

inductive Advance
  /-- The traversal is over, with this trace. -/
  | finished (trace : Trace)
  /-- The traversal goes on in these states, none where all of them were met before. -/
  | forked (states : List State)
  deriving Repr

structure Advanced where
  outcome : Advance
  seen : Seen
  log : List LogRecord

def lastIsNew (sifted : List (Option State)) : Bool :=
  match sifted.getLast? with
  | some (some _) => true
  | _ => false

/-- Follows a state until it forks or its traversal is over. A traversal carries on in the last of the
states that follow it: where only an earlier one is new, the walk goes on in that one, but the trace that
will be recorded is settled at that point. -/
def advance (g : CallGraph) (options : Options) :
    Nat → Seen → List LogRecord → Option Trace → State → Except Fault Advanced
  | 0, _, _, _, _ => .error .outOfFuel
  | fuel + 1, seen, log, settled, s =>
    let log := (s.stepLog g).reverse ++ log
    match s.step g options with
    | .error e => .error e
    | .ok (.over t) => .ok { outcome := .finished (settled.getD t.trace), seen, log }
    | .ok (.returned t) => advance g options fuel seen log settled t
    | .ok (.onward t []) => .ok { outcome := .finished (settled.getD t.trace), seen, log }
    | .ok (.onward t children) =>
      match sift seen children with
      | .error e => .error e
      | .ok (seen, sifted) =>
        match sifted.filterMap id with
        | [only] =>
          let settled := if lastIsNew sifted then settled else some (settled.getD t.trace)
          advance g options fuel seen log settled only
        | states => .ok { outcome := .forked states, seen, log }

/-! ### All traversals of a root -/

/-- The state of an exploration: the keys met, the states to go on with, how many were started, the paths
found and the log, both latest first. -/
structure Progress where
  seen : Seen
  work : List State
  started : Nat
  paths : List LockPath
  /-- The events of the paths found, with canonical names. -/
  known : FingerprintSet (List Event)
  log : List LogRecord

structure Exploration where
  /-- The paths in the order in which they were found. -/
  paths : List LockPath
  seen : Seen
  /-- The exploration was cut short with states left to go on with. -/
  cut : Bool
  log : List LogRecord

def startsPerPath : Nat := 16

namespace Progress

def start (root : Name) : Progress :=
  { seen := .empty, work := [.start root], started := 0, paths := [], known := .empty, log := [] }

def keep (p : Progress) (root : Name) (t : Trace) : Except Fault Progress :=
  let path : LockPath := { root, events := t.events, degraded := t.degraded }
  let events := t.events.map Event.canonical
  if !path.hasAcquisition then .ok p
  else if !t.events.all Event.isKeyed then .error .unkeyed
  else if p.known.contains events then .ok p
  else .ok { p with paths := path :: p.paths, known := p.known.insert events }

def absorb (p : Progress) (root : Name) (a : Advanced) : Except Fault Progress :=
  let p := { p with seen := a.seen, log := a.log }
  match a.outcome with
  | .finished trace => p.keep root trace
  | .forked states => .ok { p with work := states ++ p.work }

def isFull (options : Options) (p : Progress) : Bool :=
  options.maxPaths ≤ p.paths.length || options.maxPaths * startsPerPath ≤ p.started

def result (p : Progress) (cut : Bool) (log : List LogRecord) : Exploration :=
  { paths := p.paths.reverse, seen := p.seen, cut, log }

end Progress

def cutWarning (root : Name) (count : Nat) : LogRecord :=
  { level := .warning, source := "lockguard.lock_paths",
    message := root.display ++ s!": path enumeration cut short after {count} paths" }

def exploreFrom (g : CallGraph) (options : Options) (root : Name) :
    Nat → Progress → Except Fault Exploration
  | 0, _ => .error .outOfFuel
  | fuel + 1, p =>
    match p.work with
    | [] => .ok (p.result false p.log.reverse)
    | s :: rest =>
      if p.isFull options then
        .ok (p.result true (p.log.reverse ++ [cutWarning root p.paths.length]))
      else
        match advance g options fuel p.seen p.log none s with
        | .error e => .error e
        | .ok a =>
          match { p with work := rest, started := p.started + 1 }.absorb root a with
          | .error e => .error e
          | .ok p => exploreFrom g options root fuel p

/-- The exploration of a root; a root without a body has no paths. -/
def explore (g : CallGraph) (options : Options) (fuel : Nat) (root : Name) :
    Except Fault Exploration :=
  match g.instance? root with
  | none => .error (.unknownInstance root)
  | some i =>
    if i.body.isNone then .ok { paths := [], seen := .empty, cut := false, log := [] }
    else exploreFrom g options root fuel (.start root)

def pathsFrom (g : CallGraph) (options : Options) (fuel : Nat) (root : Name) :
    Except Fault (List LockPath) :=
  (explore g options fuel root).map fun e => LockPath.sorted e.paths

end LockAudit.Walk
