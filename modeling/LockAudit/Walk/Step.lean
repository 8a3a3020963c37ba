import LockAudit.Walk.State

/-! # Steps of a walk

One step runs the statements of the block at which the running activation stands and then its terminator.
A return leads to one state; a jump or a call leads to the states that the bounds allow, and to none where
the path ends.
-/

namespace LockAudit.Walk

/-- Why a walk cannot go on. A program that is consistent may still have a target that is no whole number and
a name that is no key. -/
inductive Fault
  | unknownInstance (id : Name)
  | noBody (id : Name)
  | missingBlock (id : Name) (block : Target)
  /-- A target cannot be compared with a block number, or it is no whole number. -/
  | strayTarget
  /-- A name that has to be looked up is no key. -/
  | unkeyed
  | outOfFuel
  deriving Repr, DecidableEq

inductive Next
  /-- The traversal is over. -/
  | over (s : State)
  /-- The running activation has returned. -/
  | returned (s : State)
  /-- A jump or call in state `s`, with the states that may follow. -/
  | onward (s : State) (children : List State)
  deriving Repr

def blockAt (g : CallGraph) (inst : Name) (block : Target) : Except Fault Block :=
  match g.instance? inst with
  | none => .error (if inst.isKey then .unknownInstance inst else .unkeyed)
  | some i =>
    match i.body with
    | none => .error (.noBody inst)
    | some body =>
      match Target.index? block with
      | none => .error .strayTarget
      | some index =>
        match body.block? index with
        | none => .error (.missingBlock inst block)
        | some b => .ok b

namespace State

def run (s : State) (statements : List Statement) : State :=
  statements.foldl apply s

def jump (options : Options) (s : State) (targets : List Target) : Except Fault (List State) :=
  if targets.all Name.isNumber then .ok (s.jumps options targets) else .error .strayTarget

def call (g : CallGraph) (options : Options) (s : State) (c : Call) :
    Except Fault (State × List State) :=
  let marked := s.markCall g c.site
  if c.target.all Name.isNumber then .ok (marked, marked.calls g options c) else .error .strayTarget

def finish (g : CallGraph) (options : Options) (s : State) : Terminator → Except Fault Next
  | .ret value location => .ok (.returned (s.leave value location))
  | .goto targets => (s.jump options targets).map (.onward s)
  | .call c => (s.call g options c).map fun r => .onward r.1 r.2

def step (g : CallGraph) (options : Options) (s : State) : Except Fault Next :=
  match s.frames with
  | [] => .ok (.over s)
  | frame :: _ =>
    match frame.block with
    | none => .ok (.over s)
    | some block =>
      match blockAt g frame.inst block with
      | .error e => .error e
      | .ok b => (s.run b.statements).finish g options b.terminator

/-! ### What a step logs -/

def complaint (s : State) : Statement → List LogRecord
  | .release guard location =>
    match s.frames with
    | [] => []
    | frame :: _ =>
      match s.findHeld frame.number guard with
      | some _ => []
      | none =>
        let place := location.render
        [{ level := .debug, source := "lockguard.lock_paths",
           message := frame.inst.display ++ ": release of " ++ guard.display ++
             s!" at {place} matches no held guard" }]
  | _ => []

def complaints (s : State) : List Statement → List LogRecord
  | [] => []
  | st :: rest => s.complaint st ++ (s.apply st).complaints rest

def stepLog (g : CallGraph) (s : State) : List LogRecord :=
  match s.frames with
  | [] => []
  | frame :: _ =>
    match frame.block with
    | none => []
    | some block =>
      match blockAt g frame.inst block with
      | .error _ => []
      | .ok b => s.complaints b.statements

end State

end LockAudit.Walk
