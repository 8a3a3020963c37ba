import LockAudit.Json.Basic
import LockAudit.Order.Sort

/-! # Canonical values

Values that are equal as data may be written differently: a whole number as an integer, a real number or a
truth value, and the fields of an object in any order. Each such group of values has one canonical member.
-/

namespace LockAudit.Json

mutual

def canonical : Json → Json
  | null => null
  | bool b => int (if b then 1 else 0)
  | int i => int i
  | real x =>
    match (Number.real x).whole? with
    | some i => int i
    | none => real x
  | str s => str s
  | arr xs => arr (canonicalItems xs)
  | obj fs => obj (sortOn Prod.fst (canonicalFields fs))

def canonicalItems : List Json → List Json
  | [] => []
  | x :: xs => canonical x :: canonicalItems xs

def canonicalFields : List (String × Json) → List (String × Json)
  | [] => []
  | (k, v) :: fs => (k, canonical v) :: canonicalFields fs

end

@[simp] theorem canonical_str (s : String) : (str s).canonical = str s := by
  simp [canonical]

@[simp] theorem canonical_null : null.canonical = null := by
  simp [canonical]

@[simp] theorem canonical_int (i : Int) : (int i).canonical = int i := by
  simp [canonical]

end LockAudit.Json
