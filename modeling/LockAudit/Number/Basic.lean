import LockAudit.Number.Binary64

/-! # Whole and real numbers

A number is whole, and then exact, or real. The two sorts compare by their exact values. A sum is whole
where both parts are, and else real, which a whole part may be too large for.
-/

namespace LockAudit

inductive Number
  | whole (value : Int)
  | real (value : Binary64)
  deriving Repr, DecidableEq, Inhabited

namespace Number

/-- The exact value, counted in units of the least positive real number. A whole number may be out of the
range of real numbers. -/
def exact : Number → Binary64
  | whole i => .finite (i < 0) (i.natAbs * Binary64.unitsPerOne)
  | real x => x

/-- `x` is less than `y`. A NaN is neither less nor greater than anything. -/
def lt (x y : Number) : Bool :=
  x.exact.lt y.exact

def le (x y : Number) : Bool :=
  x.exact.le y.exact

def isNaN : Number → Bool
  | real .nan => true
  | _ => false

def compare (x y : Number) : Ordering :=
  if x.lt y then .lt else if y.lt x then .gt else Ord.compare x.isNaN y.isNaN

def whole? : Number → Option Int
  | whole i => some i
  | real (.finite negative units) =>
    if units % Binary64.unitsPerOne = 0 then
      some (Binary64.signedUnits negative (units / Binary64.unitsPerOne))
    else none
  | real _ => none

def toReal? : Number → Option Binary64
  | real x => some x
  | whole i =>
    match Binary64.ofInt i with
    | .infinite _ => none
    | x => some x

def add? : Number → Number → Option Number
  | whole i, whole j => some (whole (i + j))
  | x, y => do
    let a ← x.toReal?
    let b ← y.toReal?
    return real (a.add b)

end Number

end LockAudit
