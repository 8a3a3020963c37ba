import LockAudit.Number.Binary64

/-! # Decimal text of numbers

Two ways to write a binary number in decimal. The *shortest* text has the fewest significant digits
that read back to the number and, of those, is the nearest to it; it is positional from one ten
thousandth up to ten to the sixteenth and has an exponent outside. The *fixed* text has a given number
of places and rounds the exact value, a tie going to the even digit.
-/

namespace LockAudit.Binary64

/-- The magnitudes, in quarter units, that round to `units`: the two ends and whether they belong. -/
structure Rounding where
  low : Nat
  high : Nat
  closed : Bool

/-- The interval of magnitudes nearest to `units`. Below a power of two the neighbours are twice as
dense, so the lower half of the interval is half as long there. -/
def rounding (units : Nat) : Rounding :=
  let step := Nat.pow 2 (scale units)
  let significand := units / step
  let below := if significand = Nat.pow 2 52 && 1 < step then step else 2 * step
  { low := 4 * units - below, high := 4 * units + 2 * step, closed := significand % 2 == 0 }

def Rounding.holds (r : Rounding) (num den : Nat) : Bool :=
  if r.closed then r.low * den ≤ num && num ≤ r.high * den
  else r.low * den < num && num < r.high * den

/-- The decimal exponent of `units`: the least `k` with `units / unitsPerOne < 10 ^ k`, found by
counting down from a `k` that is large enough, at most `fuel` times. -/
def decimalPoint (units : Nat) : Nat → Int → Int
  | 0, k => k
  | fuel + 1, k =>
    let smaller :=
      if 1 ≤ k then decide (units < Nat.pow 10 (k - 1).toNat * unitsPerOne)
      else decide (units * Nat.pow 10 (1 - k).toNat < unitsPerOne)
    if smaller then decimalPoint units fuel (k - 1) else k

/-- The nearest of the two grid points around the number that round to it, on the grid of multiples
of ten to the power `e`. -/
def gridPoint? (units : Nat) (e : Int) : Option Nat :=
  let r := rounding units
  -- the number over the grid width, as a ratio
  let num := if 0 ≤ e then units else units * Nat.pow 10 (-e).toNat
  let den := if 0 ≤ e then unitsPerOne * Nat.pow 10 e.toNat else unitsPerOne
  let hits (d : Nat) : Bool :=
    if 0 ≤ e then r.holds (4 * d * Nat.pow 10 e.toNat * unitsPerOne) 1
    else r.holds (4 * d * unitsPerOne) (Nat.pow 10 (-e).toNat)
  let d := num / den
  let nearest := roundDiv num den
  if hits d && hits (d + 1) then some nearest
  else if hits d then some d
  else if hits (d + 1) then some (d + 1)
  else none

/-- The shortest digits of a positive number, with the position of the decimal point: the value is
nearest to `0.d₁d₂… × 10 ^ point`. Seventeen digits always suffice. A grid point may be the next power
of ten, which has one digit more than its grid. -/
def shortestDigits (units : Nat) : List Char × Int :=
  let point := decimalPoint units 800 320
  let found := (List.range 17).findSome? fun n =>
    (gridPoint? units (point - Int.ofNat (n + 1))).map fun d => (n + 1, Nat.toDigits 10 d)
  match found with
  | none => ([], point)
  | some (count, digits) =>
    ((digits.reverse.dropWhile (· == '0')).reverse, point + Int.ofNat (digits.length - count))

def positional (digits : List Char) (point : Int) : List Char :=
  if point ≤ 0 then
    ['0', '.'] ++ List.replicate (-point).toNat '0' ++ digits
  else
    let n := point.toNat
    let whole := digits.take n ++ List.replicate (n - digits.length) '0'
    let rest := digits.drop n
    whole ++ ['.'] ++ (if rest.isEmpty then ['0'] else rest)

def scientific (digits : List Char) (point : Int) : List Char :=
  let e := point - 1
  let mantissa := match digits with
    | [] => ['0']
    | [d] => [d]
    | d :: rest => d :: '.' :: rest
  let size := Nat.toDigits 10 e.natAbs
  let sign := if e < 0 then '-' else '+'
  mantissa ++ ['e', sign] ++ List.replicate (2 - size.length) '0' ++ size

def signText (negative : Bool) : List Char :=
  if negative then ['-'] else []

def shortest : Binary64 → String
  | nan => "nan"
  | infinite s => String.ofList (signText s) ++ "inf"
  | finite s 0 => String.ofList (signText s) ++ "0.0"
  | finite s units =>
    let (digits, point) := shortestDigits units
    let body := if -4 < point && point ≤ 16 then positional digits point else scientific digits point
    String.ofList (signText s ++ body)

def fixed (places : Nat) : Binary64 → String
  | nan => "nan"
  | infinite s => String.ofList (signText s) ++ "inf"
  | finite s units =>
    let scaled := roundDiv (units * Nat.pow 10 places) unitsPerOne
    let digits := Nat.toDigits 10 scaled
    let padded := List.replicate (places + 1 - digits.length) '0' ++ digits
    let cut := padded.length - places
    String.ofList (signText s ++ padded.take cut ++ ['.'] ++ padded.drop cut)

end LockAudit.Binary64
