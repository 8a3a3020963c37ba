/-! # Sets by fingerprint

A set of values kept in a binary tree that is indexed by the low bits of a fingerprint. Each leaf holds
the values that share those bits, so a look-up compares few values. The fingerprint is only an index:
`contains_insert` holds whatever it is.
-/

namespace LockAudit

class Fingerprint (α : Type) where
  fingerprint : α → Nat

/-! ### Mixing numbers -/

namespace Fingerprint

def seed : UInt64 := 14695981039346656037

def mix (h n : UInt64) : UInt64 :=
  (h ^^^ n) * 1099511628211

def mixText (h : UInt64) (s : String) : UInt64 :=
  s.toList.foldl (fun h c => mix h c.toNat.toUInt64) h

/-- The high bits of a mixed number depend on all that went in. -/
def finger (h : UInt64) : Nat :=
  (h >>> 40).toNat

end Fingerprint

inductive FingerprintTree (α : Type) : Nat → Type
  | empty {n : Nat} : FingerprintTree α n
  | leaf (values : List α) : FingerprintTree α 0
  | node {n : Nat} (even odd : FingerprintTree α n) : FingerprintTree α (n + 1)

namespace FingerprintTree

variable {α : Type}

def contains [DecidableEq α] (x : α) {n : Nat} (code : Nat) : FingerprintTree α n → Bool
  | empty => false
  | leaf values => values.contains x
  | node even odd =>
    if code % 2 = 0 then even.contains x (code / 2) else odd.contains x (code / 2)

def insert (x : α) : {n : Nat} → Nat → FingerprintTree α n → FingerprintTree α n
  | 0, _, empty => leaf [x]
  | 0, _, leaf values => leaf (x :: values)
  | _ + 1, code, empty =>
    if code % 2 = 0 then node (insert x (code / 2) empty) empty
    else node empty (insert x (code / 2) empty)
  | _ + 1, code, node even odd =>
    if code % 2 = 0 then node (insert x (code / 2) even) odd
    else node even (insert x (code / 2) odd)

theorem contains_insert_self [DecidableEq α] (x : α) {n : Nat} (code : Nat)
    (t : FingerprintTree α n) : (t.insert x code).contains x code = true := by
  induction n generalizing code with
  | zero => cases t <;> simp [insert, contains]
  | succ n ih =>
    cases t <;> by_cases h : code % 2 = 0 <;> simp [insert, contains, h, ih]

theorem contains_insert_of_ne [DecidableEq α] {x y : α} (hne : y ≠ x) {n : Nat} (cx cy : Nat)
    (t : FingerprintTree α n) : (t.insert x cx).contains y cy = t.contains y cy := by
  induction n generalizing cx cy with
  | zero => cases t <;> simp [insert, contains, hne]
  | succ n ih =>
    cases t <;> by_cases hx : cx % 2 = 0 <;> by_cases hy : cy % 2 = 0 <;>
      simp [insert, contains, hx, hy, ih]

end FingerprintTree

/-- A set of values; the trees look at sixteen bits. -/
structure FingerprintSet (α : Type) where
  tree : FingerprintTree α 16

namespace FingerprintSet

variable {α : Type} [DecidableEq α] [Fingerprint α]

def empty : FingerprintSet α :=
  ⟨.empty⟩

def contains (s : FingerprintSet α) (x : α) : Bool :=
  s.tree.contains x (Fingerprint.fingerprint x)

def insert (s : FingerprintSet α) (x : α) : FingerprintSet α :=
  ⟨s.tree.insert x (Fingerprint.fingerprint x)⟩

@[simp] theorem contains_empty (x : α) : (empty : FingerprintSet α).contains x = false := rfl

theorem contains_insert (s : FingerprintSet α) (x y : α) :
    (s.insert x).contains y = (decide (y = x) || s.contains y) := by
  by_cases h : y = x
  · subst h
    simp [insert, contains, FingerprintTree.contains_insert_self]
  · simp [insert, contains, FingerprintTree.contains_insert_of_ne h, h]

def ofList (xs : List α) : FingerprintSet α :=
  xs.foldl insert empty

theorem contains_foldl_insert (xs : List α) (s : FingerprintSet α) (y : α) :
    (xs.foldl insert s).contains y = (decide (y ∈ xs) || s.contains y) := by
  induction xs generalizing s with
  | nil => simp
  | cons x xs ih =>
    rw [List.foldl_cons, ih, contains_insert]
    by_cases h : y = x <;> by_cases hxs : y ∈ xs <;> simp [h, hxs]

@[simp] theorem contains_ofList (xs : List α) (y : α) :
    (ofList xs).contains y = decide (y ∈ xs) := by
  simp [ofList, contains_foldl_insert]

def fresh (s : FingerprintSet α) : List α → List α
  | [] => []
  | x :: xs => if s.contains x then s.fresh xs else x :: (s.insert x).fresh xs

theorem mem_fresh (s : FingerprintSet α) (xs : List α) (y : α) :
    y ∈ s.fresh xs ↔ y ∈ xs ∧ s.contains y = false := by
  induction xs generalizing s with
  | nil => simp [fresh]
  | cons x xs ih =>
    by_cases hx : s.contains x = true
    · by_cases hy : y = x
      · subst hy
        simp [fresh, hx, ih]
      · simp [fresh, hx, ih, hy]
    · by_cases hy : y = x
      · simp [fresh, hx, hy]
      · simp [fresh, hx, ih, hy, contains_insert]

theorem nodup_fresh (s : FingerprintSet α) (xs : List α) : (s.fresh xs).Nodup := by
  induction xs generalizing s with
  | nil => simp [fresh]
  | cons x xs ih =>
    by_cases hx : s.contains x = true
    · simp [fresh, hx, ih]
    · simp [fresh, hx, ih, mem_fresh, contains_insert]

def freshOn {β : Type} (key : β → α) (s : FingerprintSet α) : List β → List β
  | [] => []
  | y :: ys =>
    if s.contains (key y) then freshOn key s ys
    else y :: freshOn key (s.insert (key y)) ys

theorem map_freshOn {β : Type} (key : β → α) (s : FingerprintSet α) (ys : List β) :
    (freshOn key s ys).map key = s.fresh (ys.map key) := by
  induction ys generalizing s with
  | nil => simp [freshOn, fresh]
  | cons y ys ih => by_cases h : s.contains (key y) = true <;> simp [freshOn, fresh, h, ih]

theorem freshOn_sublist {β : Type} (key : β → α) (s : FingerprintSet α) (ys : List β) :
    (freshOn key s ys).Sublist ys := by
  induction ys generalizing s with
  | nil => simp [freshOn]
  | cons y ys ih =>
    by_cases h : s.contains (key y) = true
    · simpa [freshOn, h] using (ih s).cons y
    · simpa [freshOn, h] using (ih (s.insert (key y))).cons_cons y

end FingerprintSet

def distinct {α : Type} [DecidableEq α] [Fingerprint α] (xs : List α) : List α :=
  FingerprintSet.empty.fresh xs

theorem mem_distinct {α : Type} [DecidableEq α] [Fingerprint α] (xs : List α) (x : α) :
    x ∈ distinct xs ↔ x ∈ xs := by
  simp [distinct, FingerprintSet.mem_fresh]

theorem nodup_distinct {α : Type} [DecidableEq α] [Fingerprint α] (xs : List α) :
    (distinct xs).Nodup :=
  FingerprintSet.nodup_fresh _ _

def distinctOn {α β : Type} [DecidableEq α] [Fingerprint α] (key : β → α) (ys : List β) : List β :=
  FingerprintSet.empty.freshOn key ys

theorem map_distinctOn {α β : Type} [DecidableEq α] [Fingerprint α] (key : β → α) (ys : List β) :
    (distinctOn key ys).map key = distinct (ys.map key) :=
  FingerprintSet.map_freshOn _ _ _

theorem distinctOn_sublist {α β : Type} [DecidableEq α] [Fingerprint α] (key : β → α)
    (ys : List β) : (distinctOn key ys).Sublist ys :=
  FingerprintSet.freshOn_sublist _ _ _

end LockAudit
