import LockAudit.Location
import LockAudit.Lock

/-! # Programs

A program is a snapshot of one compilation unit: function instances with their control-flow bodies,
reduced to guard acquisitions, releases, scope ends and the block structure with its call sites.
-/

namespace LockAudit

/-- Where a jump leads, as the document says it. Only a whole number names a block. -/
abbrev Target := Json

/-- The number of the block that a target names; a truth value counts as zero or one. -/
def Target.index? : Target → Option Int
  | .int i => some i
  | .bool b => some (if b then 1 else 0)
  | _ => none

inductive Statement
  /-- Binds the local `guard` to a new guard on `lock`. Any value tells whether the guard is an RAII one,
  which the end of its scope drops. -/
  | acquire (guard : Name) (lock : Lock) (kind : GuardKind) (location : Location) (raii : Json)
  /-- Releases the guard bound to a local. -/
  | release (guard : Name) (location : Location)
  /-- Ends a lexical scope, which drops the RAII guards among its locals. -/
  | scopeExit (locals : List Name) (location : Location)
  deriving Repr, DecidableEq, Inhabited

/-- A call, direct when it names its callee and else through a signature, which a method may narrow
down. Control returns to `target`, if ever, and `destination` receives the result. A name that is not
given is null. -/
structure Call where
  site : Name
  callee : Name
  signature : Name
  method : Name
  target : Option Target
  destination : Name
  location : Location
  deriving Repr, DecidableEq, Inhabited

def Call.isIndirect (c : Call) : Bool :=
  c.callee == .null

inductive Terminator
  /-- A jump to one of the targets. -/
  | goto (targets : List Target)
  | call (call : Call)
  /-- Return to the caller, handing over a local. -/
  | ret (value : Name) (location : Location)
  deriving Repr, DecidableEq, Inhabited

def Terminator.successors : Terminator → List Target
  | goto targets => targets
  | call c => c.target.toList
  | ret _ _ => []

structure Block where
  statements : List Statement
  terminator : Terminator
  deriving Repr, DecidableEq, Inhabited

structure Body where
  blocks : List Block
  deriving Repr, DecidableEq, Inhabited

def Body.calls (b : Body) : List Call :=
  b.blocks.filterMap fun block => match block.terminator with
    | .call c => some c
    | _ => none

/-- The block with a given number; a negative number counts from the end. -/
def Body.block? (b : Body) (index : Int) : Option Block :=
  let i := if index < 0 then index + Int.ofNat b.blocks.length else index
  if i < 0 then none else b.blocks[i.toNat]?

structure Instance where
  id : Name
  defPath : Name
  typeArgs : List Name
  signature : Name
  method : Name
  body : Option Body
  deriving Repr, DecidableEq, Inhabited

structure Program where
  unit : Name
  instances : List Instance
  roots : List Name
  codegen : Bool
  buildScript : Bool
  deriving Repr, DecidableEq, Inhabited

namespace Program

def ids (p : Program) : List Name :=
  p.instances.map Instance.id

def bodied (instances : List Instance) : List Name :=
  (instances.filter fun i => i.body.isSome).map Instance.id

/-- The roots where a program names none: every instance with a body, in ascending order. -/
def defaultRoots (instances : List Instance) : List Name :=
  orderOn id (bodied instances)

def make (unit : Name) (instances : List Instance) (roots : List Name)
    (codegen buildScript : Bool) : Program :=
  { unit, instances, codegen, buildScript,
    roots := if roots.isEmpty then defaultRoots instances else roots }

end Program

end LockAudit
