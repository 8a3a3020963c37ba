import LockAudit.FingerprintSet
import LockAudit.Json.Canonical
import LockAudit.Json.Shown
import LockAudit.Order.Ranked

/-! # Names

Functions, locals, fields, types and call sites are named by values of a document. Nearly every name is a
text, but any other value can serve as one. Numbers and truth values are the same name where they are
equal as numbers, and objects where they have the same fields in whatever order.

Lists and objects are no keys: they can be compared but not looked up. Texts have an order among
themselves, and so have numbers; there is none between two names of different sorts.
-/

namespace LockAudit

abbrev Name := Json

namespace Name

def same (a b : Name) : Bool :=
  a.canonical == b.canonical

@[simp] theorem same_self (a : Name) : same a a = true := by
  simp [same]

@[simp] theorem same_str (s t : String) : same (.str s) (.str t) = decide (s = t) := by
  rw [Bool.eq_iff_iff]
  simp [same]

/-- Whether two names compare as equal. Unlike all other names, NaN does not equal itself. -/
def equals (a b : Name) : Bool :=
  a != .real .nan && same a b

def isText : Name → Bool
  | .str _ => true
  | _ => false

def isNumber (n : Name) : Bool :=
  (Json.number? n).isSome

/-- Whether a name can be looked up. -/
def isKey : Name → Bool
  | .arr _ => false
  | .obj _ => false
  | _ => true

def display : Name → String
  | .str s => s
  | v => v.shown

def orElse (n fallback : Name) : Name :=
  if n.truthy then n else fallback

def mix (h : UInt64) : Name → UInt64
  | .str s => Fingerprint.mixText h s
  | .int i => Fingerprint.mix h i.natAbs.toUInt64
  | .real (.finite _ units) => Fingerprint.mix h (units % 4294967291).toUInt64
  | _ => h

/-! ### Order -/

def sortRank : Name → Nat
  | .null => 0
  | .bool _ => 1
  | .int _ => 1
  | .real _ => 1
  | .str _ => 2
  | .arr _ => 3
  | .obj _ => 4

/-- Texts compare by code point, numbers by value with NaN behind them, and all others by their sort
alone. -/
protected def compare (a b : Name) : Ordering :=
  match a, b with
  | .str s, .str t => Ord.compare s t
  | _, _ =>
    match Json.number? a, Json.number? b with
    | some x, some y => x.compare y
    | _, _ => Ord.compare (sortRank a) (sortRank b)

instance : Ord Json where
  compare := Name.compare

def relateNumbers (x y : Number) : Relation :=
  if x.lt y then .before else if y.lt x then .after else .apart

def relate (a b : Name) : Relation :=
  match a, b with
  | .str s, .str t => .ofOrdering (Ord.compare s t)
  | _, _ =>
    if same a b then .same
    else
      match Json.number? a, Json.number? b with
      | some x, some y => relateNumbers x y
      | _, _ => .alien

instance : Ranked Json where
  isPlain := isText
  relate := relate

def texts? (names : List Name) : Option (List String) :=
  names.mapM fun
    | .str s => some s
    | _ => none

end Name

end LockAudit
