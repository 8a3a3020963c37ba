/-! # Binary floating point numbers of 64 bits

A finite number is a sign and a magnitude counted in units of the least positive number, so that
comparison and addition are integer arithmetic followed by one rounding. A magnitude is representable
when it has at most 53 significant bits. Rounding goes to the nearest representable magnitude, a tie to
the one with an even significand, and past the largest one to infinity.
-/

namespace LockAudit

def roundDiv (num den : Nat) : Nat :=
  let q := num / den
  let r := 2 * (num % den)
  if den < r || (r == den && q % 2 == 1) then q + 1 else q

inductive Binary64
  | nan
  | infinite (negative : Bool)
  | finite (negative : Bool) (units : Nat)
  deriving Repr, DecidableEq, Inhabited

namespace Binary64

/-- The number of units in one: the least positive number is the inverse of this. -/
def unitsPerOne : Nat := Nat.pow 2 1074

def overflow : Nat := Nat.pow 2 2098

def scale (units : Nat) : Nat :=
  if units = 0 then 0 else units.log2 + 1 - 53

def ofRatio (negative : Bool) (num den : Nat) : Binary64 :=
  let whole := num * unitsPerOne
  let step := Nat.pow 2 (scale (whole / den))
  let units := roundDiv whole (den * step) * step
  if overflow ≤ units then infinite negative else finite negative units

def ofInt (i : Int) : Binary64 :=
  ofRatio (i < 0) i.natAbs 1

def zero : Binary64 := finite false 0

/-- The number nearest to `digits` times ten to the power `exponent`. The size of the result is
estimated first, so an exponent out of range costs nothing. -/
def ofDecimal (negative : Bool) (digits : Nat) (exponent : Int) : Binary64 :=
  let size := Int.ofNat (Nat.toDigits 10 digits).length + exponent
  if digits = 0 || size < -400 then finite negative 0
  else if 400 < size then infinite negative
  else if 0 ≤ exponent then ofRatio negative (digits * Nat.pow 10 exponent.toNat) 1
  else ofRatio negative digits (Nat.pow 10 (-exponent).toNat)

def signedUnits (negative : Bool) (units : Nat) : Int :=
  if negative then -(Int.ofNat units) else Int.ofNat units

/-- `x` is less than `y`. A NaN is neither less nor greater than anything. -/
def lt : Binary64 → Binary64 → Bool
  | nan, _ => false
  | _, nan => false
  | infinite s, infinite t => s && !t
  | infinite s, finite _ _ => s
  | finite _ _, infinite t => !t
  | finite s m, finite t n => signedUnits s m < signedUnits t n

/-- `x` equals `y` as a number: the two zeros are equal, a NaN equals nothing. -/
def eq : Binary64 → Binary64 → Bool
  | infinite s, infinite t => s == t
  | finite s m, finite t n => signedUnits s m == signedUnits t n
  | _, _ => false

def le (x y : Binary64) : Bool :=
  x.lt y || x.eq y

def add : Binary64 → Binary64 → Binary64
  | nan, _ => nan
  | _, nan => nan
  | infinite s, infinite t => if s == t then infinite s else nan
  | infinite s, finite _ _ => infinite s
  | finite _ _, infinite t => infinite t
  | finite s m, finite t n =>
    let sum := signedUnits s m + signedUnits t n
    if sum = 0 then finite (s && t) 0
    else ofRatio (sum < 0) sum.natAbs unitsPerOne

end Binary64

end LockAudit
