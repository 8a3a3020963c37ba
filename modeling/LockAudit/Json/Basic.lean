import LockAudit.Number.Basic

/-! # JSON values

Integers are unbounded, other numbers are binary floating point and may be infinite or NaN, and the
fields of an object keep the order in which they were first written.
-/

namespace LockAudit

inductive Json
  | null
  | bool (value : Bool)
  | int (value : Int)
  | real (value : Binary64)
  | str (value : String)
  | arr (items : List Json)
  | obj (fields : List (String × Json))
  deriving Inhabited, Repr

namespace Json

/-! ### Equality -/

mutual

def beq : Json → Json → Bool
  | null, null => true
  | bool a, bool b => a == b
  | int a, int b => a == b
  | real a, real b => a == b
  | str a, str b => a == b
  | arr xs, arr ys => beqItems xs ys
  | obj fs, obj gs => beqFields fs gs
  | _, _ => false

def beqItems : List Json → List Json → Bool
  | [], [] => true
  | x :: xs, y :: ys => beq x y && beqItems xs ys
  | _, _ => false

def beqFields : List (String × Json) → List (String × Json) → Bool
  | [], [] => true
  | (k, v) :: fs, (l, w) :: gs => k == l && beq v w && beqFields fs gs
  | _, _ => false

end

mutual

theorem beq_iff : ∀ a b : Json, beq a b = true ↔ a = b
  | arr xs, b => by cases b <;> simp [beq, beqItems_iff xs]
  | obj fs, b => by cases b <;> simp [beq, beqFields_iff fs]
  | null, b => by cases b <;> simp [beq]
  | bool _, b => by cases b <;> simp [beq]
  | int _, b => by cases b <;> simp [beq]
  | real _, b => by cases b <;> simp [beq]
  | str _, b => by cases b <;> simp [beq]

theorem beqItems_iff : ∀ xs ys : List Json, beqItems xs ys = true ↔ xs = ys
  | [], ys => by cases ys <;> simp [beqItems]
  | x :: xs, ys => by cases ys <;> simp [beqItems, beq_iff x, beqItems_iff xs]

theorem beqFields_iff : ∀ fs gs : List (String × Json), beqFields fs gs = true ↔ fs = gs
  | [], gs => by cases gs <;> simp [beqFields]
  | (k, v) :: fs, gs => by
    cases gs with
    | nil => simp [beqFields]
    | cons g gs =>
      obtain ⟨l, w⟩ := g
      simp [beqFields, beq_iff v, beqFields_iff fs, and_assoc]

end

instance : DecidableEq Json := fun a b => decidable_of_iff (beq a b = true) (beq_iff a b)

/-! ### Parts -/

def field? (name : String) (fields : List (String × Json)) : Option Json :=
  (fields.find? fun f => f.1 == name).map Prod.snd

/-- Adds a field; a field of the same name keeps its place and takes the new value. -/
def insertField (fields : List (String × Json)) (name : String) (value : Json) :
    List (String × Json) :=
  if fields.any fun f => f.1 == name then
    fields.map fun f => if f.1 == name then (name, value) else f
  else fields ++ [(name, value)]

/-- Whether a value counts as true where a condition is wanted: null, false, zeros and empty values
do not. -/
def truthy : Json → Bool
  | null => false
  | bool b => b
  | int i => i != 0
  | real x => !x.eq Binary64.zero
  | str s => !s.isEmpty
  | arr xs => !xs.isEmpty
  | obj fs => !fs.isEmpty

/-- The number that a value is; a truth value counts as zero or one. -/
def number? : Json → Option Number
  | bool b => some (.whole (if b then 1 else 0))
  | int i => some (.whole i)
  | real x => some (.real x)
  | _ => none

def ofNumber : Number → Json
  | .whole i => int i
  | .real x => real x

def ofText? : Option String → Json
  | some s => str s
  | none => null

def ofNat (n : Nat) : Json :=
  int (Int.ofNat n)

def texts (xs : List String) : Json :=
  arr (xs.map str)

end Json

end LockAudit
