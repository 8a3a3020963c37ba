import LockAudit.Program.Basic

/-! # Consistency of programs

A consistent program has all its roots among its instances, at least one block in every body, and only
jumps to blocks that exist.
-/

namespace LockAudit

inductive Inconsistency
  | missingRoots (roots : List String)
  | noBlocks (id : Name)
  | missingBlock (id : Name) (block : Nat) (target : Target)
  /-- A root is missing and named by something other than a text, or it cannot be looked up. -/
  | strayRoot
  /-- A jump to something that cannot be compared with a block number. -/
  | strayTarget
  deriving Repr, DecidableEq

def Target.within? (count : Nat) (t : Target) : Option Bool :=
  (Json.number? t).map fun n => Number.le (.whole 0) n && n.lt (.whole (Int.ofNat count))

namespace Inconsistency

def message : Inconsistency → String
  | missingRoots roots =>
    "analysis roots not among supplied instances: " ++ ", ".intercalate roots
  | noBlocks id => id.display ++ ": body has no blocks"
  | missingBlock id block target =>
    id.display ++ s!": bb{block} jumps to missing bb" ++ Name.display target
  | strayRoot => "a root is not named by a text"
  | strayTarget => "a jump target is not a number"

/-- Whether a fault is told to the user as one of the program; the others end the analysis. -/
def isReported : Inconsistency → Bool
  | strayRoot => false
  | strayTarget => false
  | _ => true

end Inconsistency

def checkTargets (id : Name) (count block : Nat) : List Target → Except Inconsistency Unit
  | [] => .ok ()
  | t :: ts =>
    match Target.within? count t with
    | none => .error .strayTarget
    | some false => .error (.missingBlock id block t)
    | some true => checkTargets id count block ts

def checkBlocks (id : Name) (count : Nat) : Nat → List Block → Except Inconsistency Unit
  | _, [] => .ok ()
  | index, b :: bs => do
    checkTargets id count index b.terminator.successors
    checkBlocks id count (index + 1) bs

def Instance.check (i : Instance) : Except Inconsistency Unit :=
  match i.body with
  | none => .ok ()
  | some body =>
    if body.blocks.isEmpty then .error (.noBlocks i.id)
    else checkBlocks i.id body.blocks.length 0 body.blocks

namespace Program

def missingRoots (p : Program) : List Name :=
  p.roots.filter fun r => !p.ids.any r.same

def checkRoots (p : Program) : Except Inconsistency Unit :=
  if !p.roots.all Name.isKey then .error .strayRoot
  else if p.missingRoots.isEmpty then .ok ()
  else
    match Name.texts? p.missingRoots with
    | some roots => .error (.missingRoots roots)
    | none => .error .strayRoot

/-- The first inconsistency: missing roots, then the instances in order. -/
def check (p : Program) : Except Inconsistency Unit := do
  p.checkRoots
  p.instances.forM Instance.check

end Program

end LockAudit
