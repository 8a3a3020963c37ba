import LockAudit.Options
import LockAudit.CallGraph.Basic
import LockAudit.Path

/-! # Walk states

A walk state is what one traversal knows: the activations on the call stack, the guards that are held,
the events so far, and how often each block of each activation was entered. The functions below are the
effects of the single steps of a walk.
-/

namespace LockAudit.Walk

/-- One activation of an instance. -/
structure Frame where
  inst : Name
  /-- The block to run next, none after a call that never returns. -/
  block : Option Target
  number : Nat
  /-- The caller's local that receives the returned value. -/
  returnTo : Name
  deriving Repr, DecidableEq, Inhabited

/-- A guard that is held: the activation and local that own it, and the position of its acquisition. -/
structure Held where
  frame : Nat
  guard : Name
  index : Nat
  /-- Any value tells whether the guard is an RAII one. -/
  raii : Json
  deriving Repr, DecidableEq, Inhabited

/-- How often each block of each activation was entered, in ascending order of activation and block. A
block has the number by which it was first entered. -/
abbrev Visits := List ((Nat × Target) × Nat)

namespace Visits

def count (visits : Visits) (frame : Nat) (block : Target) : Nat :=
  match visits.find? fun v => v.1.1 == frame && Name.same v.1.2 block with
  | some v => v.2
  | none => 0

def enter (frame : Nat) (block : Target) : Visits → Visits
  | [] => [((frame, block), 1)]
  | ((f, b), n) :: rest =>
    if f = frame && Name.same b block then ((f, b), n + 1) :: rest
    else if frame < f || (frame = f && compare block b == .lt) then
      ((frame, block), 1) :: ((f, b), n) :: rest
    else ((f, b), n) :: enter frame block rest

end Visits

structure State where
  /-- The call stack, the running activation first. -/
  frames : List Frame
  /-- The guards that are held, the oldest first. -/
  held : List Held
  events : List Event
  visits : Visits
  /-- The number of the next activation. -/
  nextFrame : Nat
  /-- Something could not be tracked. -/
  degraded : Bool
  deriving Repr, DecidableEq, Inhabited

/-- What tells walk states apart: all but the number of the next activation. Its names are canonical. -/
structure Key where
  frames : List Frame
  held : List Held
  events : List Event
  visits : Visits
  degraded : Bool
  deriving Repr, DecidableEq, Inhabited

namespace Frame

def isKeyed (f : Frame) : Bool :=
  f.inst.isKey && f.returnTo.isKey

def canonical (f : Frame) : Frame :=
  { f with
    inst := f.inst.canonical
    block := f.block.map Json.canonical
    returnTo := f.returnTo.canonical }

end Frame

namespace Held

def isKeyed (h : Held) : Bool :=
  h.guard.isKey && Name.isKey h.raii

def canonical (h : Held) : Held :=
  { h with guard := h.guard.canonical, raii := h.raii.canonical }

end Held

namespace State

def start (root : Name) : State :=
  { frames := [{ inst := root, block := some (.int 0), number := 0, returnTo := .null }]
    held := [], events := [], visits := [((0, .int 0), 1)], nextFrame := 1, degraded := false }

def key (s : State) : Key where
  frames := s.frames.map Frame.canonical
  held := s.held.map Held.canonical
  events := s.events.map Event.canonical
  visits := s.visits.map fun v => ((v.1.1, v.1.2.canonical), v.2)
  degraded := s.degraded

def isKeyed (s : State) : Bool :=
  s.frames.all Frame.isKeyed && s.held.all Held.isKeyed && s.events.all Event.isKeyed

def key? (s : State) : Option Key :=
  if s.isKeyed then some s.key else none

def chain (s : State) : List Name :=
  (s.frames.map Frame.inst).reverse

/-! ### Guards -/

/-- The guard that a release by `frame` of the local `guard` ends: the newest that the activation bound to
that local, or else the newest manual guard of that name, since a manual lock and its unlock may stand in
different functions. -/
def findHeld (s : State) (frame : Nat) (guard : Name) : Option Held :=
  match s.held.reverse.find? fun h => h.frame == frame && h.guard.same guard with
  | some h => some h
  | none => s.held.reverse.find? fun h => !h.raii.truthy && h.guard.equals guard

def acquisition (s : State) (frame : Frame) (guard : Name) (lock : Lock) (kind : GuardKind)
    (location : Location) : Event where
  op := .acquire
  kind := kind
  lock := lock
  location := location
  inst := frame.inst
  guard := guard
  chain := s.chain
  acquired := none
  frame := Int.ofNat frame.number

def acquire (s : State) (frame : Frame) (guard : Name) (lock : Lock) (kind : GuardKind)
    (location : Location) (raii : Json) : State :=
  { s with
    events := s.events ++ [s.acquisition frame guard lock kind location]
    held := s.held ++ [{ frame := frame.number, guard, index := s.events.length, raii }] }

def ending (s : State) (frame : Frame) (e : Event) (index : Nat) (location : Location) : Event where
  op := .release
  kind := e.kind
  lock := e.lock
  location := location
  inst := frame.inst
  guard := e.guard
  chain := s.chain
  acquired := some (Int.ofNat index)
  frame := Int.ofNat frame.number

/-- Ends a guard on behalf of the running activation. A guard is known by its acquisition. -/
def release (s : State) (frame : Frame) (h : Held) (location : Location) : State :=
  match s.events[h.index]? with
  | none => s
  | some e =>
    { s with
      held := s.held.eraseP fun k => k.index == h.index
      events := s.events ++ [s.ending frame e h.index location] }

def rebind (s : State) (h : Held) (frame : Nat) (guard : Name) : State :=
  { s with held := s.held.map fun k => if k.index == h.index then { k with frame, guard } else k }

def dropped (s : State) (frame : Nat) (locals : List Name) : List Held :=
  s.held.reverse.filter fun h => h.raii.truthy && h.frame == frame && locals.any h.guard.same

/-- The effect of a statement. A release that ends no guard leaves the state degraded. -/
def apply (s : State) (statement : Statement) : State :=
  match s.frames with
  | [] => s
  | frame :: _ =>
    match statement with
    | .acquire guard lock kind location raii => s.acquire frame guard lock kind location raii
    | .release guard location =>
      match s.findHeld frame.number guard with
      | some h => s.release frame h location
      | none => { s with degraded := true }
    | .scopeExit locals location =>
      (s.dropped frame.number locals).foldl (fun t h => t.release frame h location) s

/-- What a return does to a guard of the activation that ends: the returned local moves to the caller's
destination, if there is one, and any other RAII guard is dropped. -/
def settle (frame : Frame) (caller : Option Frame) (value : Name) (location : Location)
    (s : State) (h : Held) : State :=
  let drop := if h.raii.truthy then s.release frame h location else s
  match caller with
  | some c =>
    if h.guard.equals value && frame.returnTo.truthy then s.rebind h c.number frame.returnTo else drop
  | none => drop

/-- The effect of a return: the guards of the running activation are settled, the newest first, and the
activation ends. -/
def leave (s : State) (value : Name) (location : Location) : State :=
  match s.frames with
  | [] => s
  | frame :: callers =>
    let own := s.held.reverse.filter fun h => h.frame == frame.number
    { own.foldl (settle frame callers.head? value location) s with frames := callers }

/-! ### Jumps and calls -/

def enter (s : State) (block : Target) : State :=
  match s.frames with
  | [] => s
  | frame :: callers =>
    { s with
      frames := { frame with block := some block } :: callers
      visits := s.visits.enter frame.number block }

def allowed (options : Options) (s : State) (targets : List Target) : List Target :=
  match s.frames with
  | [] => []
  | frame :: _ => targets.filter fun t => s.visits.count frame.number t < options.maxRevisits

def jumps (options : Options) (s : State) (targets : List Target) : List State :=
  (s.allowed options targets).map s.enter

def active (s : State) (id : Name) : Nat :=
  s.frames.countP fun f => f.inst.equals id

def canInline (g : CallGraph) (options : Options) (s : State) (callee : Name) : Bool :=
  match g.instance? callee with
  | none => false
  | some i => i.body.isSome && s.frames.length < options.maxDepth &&
      s.active callee < options.maxRevisits

/-- Enters a callee. The running activation waits at the block where control returns, if ever, and that
block counts as entered. -/
def push (s : State) (callee : Name) (target : Option Target) (destination : Name) : State :=
  match s.frames with
  | [] => s
  | frame :: callers =>
    let visits := match target with
      | some t => s.visits.enter frame.number t
      | none => s.visits
    { s with
      frames :=
        { inst := callee, block := some (.int 0), number := s.nextFrame, returnTo := destination } ::
        { frame with block := target } :: callers
      visits := visits.enter s.nextFrame (.int 0)
      nextFrame := s.nextFrame + 1 }

def markCall (g : CallGraph) (s : State) (site : Name) : State :=
  match s.frames with
  | [] => s
  | frame :: _ => if g.isUnresolved frame.inst site then { s with degraded := true } else s

def inlined (g : CallGraph) (options : Options) (s : State) (site : Name) : List Name :=
  match s.frames with
  | [] => []
  | frame :: _ => (g.callees frame.inst site).filter (canInline g options s)

/-- The states after a call: one for each callee that is followed, or, where none is, the one behind the
call. -/
def calls (g : CallGraph) (options : Options) (s : State) (c : Call) : List State :=
  let callees := s.inlined g options c.site
  if callees.isEmpty then s.jumps options c.target.toList
  else callees.map fun callee => s.push callee c.target c.destination

end State

end LockAudit.Walk
