import LockAudit.FingerprintSet

/-! # Look-ups by fingerprint

A list of values kept by the fingerprints of their keys. A look-up yields the values with a given key in
the order of the list: `withKey_ofList` says that it is a filter.
-/

namespace LockAudit

namespace FingerprintTree

variable {α : Type}

def select (p : α → Bool) {n : Nat} (code : Nat) : FingerprintTree α n → List α
  | empty => []
  | leaf values => values.filter p
  | node even odd =>
    if code % 2 = 0 then even.select p (code / 2) else odd.select p (code / 2)

theorem select_insert (p : α → Bool) {x : α} {n : Nat} {cx cy : Nat} (h : p x = true → cx = cy)
    (t : FingerprintTree α n) :
    (t.insert x cx).select p cy = if p x then x :: t.select p cy else t.select p cy := by
  induction n generalizing cx cy with
  | zero => cases t <;> by_cases hp : p x = true <;> simp [insert, select, hp]
  | succ n ih =>
    have half : p x = true → cx / 2 = cy / 2 := fun hp => by rw [h hp]
    by_cases hp : p x = true
    · have eq := h hp
      subst eq
      cases t <;> by_cases hx : cx % 2 = 0 <;> simp [insert, select, hx, hp, ih half]
    · cases t <;> by_cases hx : cx % 2 = 0 <;> by_cases hy : cy % 2 = 0 <;>
        simp [insert, select, hx, hy, hp, ih half]

end FingerprintTree

/-- Values of a type by keys of another; the trees look at sixteen bits. -/
structure FingerprintIndex (κ α : Type) where
  key : α → κ
  tree : FingerprintTree α 16

namespace FingerprintIndex

variable {κ α : Type} [DecidableEq κ] [Fingerprint κ]

def ofList (key : α → κ) (xs : List α) : FingerprintIndex κ α where
  key := key
  tree := xs.foldr (fun x t => t.insert x (Fingerprint.fingerprint (key x))) .empty

def withKey (i : FingerprintIndex κ α) (k : κ) : List α :=
  i.tree.select (fun x => i.key x = k) (Fingerprint.fingerprint k)

theorem withKey_ofList (key : α → κ) (xs : List α) (k : κ) :
    (ofList key xs).withKey k = xs.filter fun x => key x = k := by
  induction xs with
  | nil => rfl
  | cons x xs ih =>
    have eq : decide (key x = k) = true →
        Fingerprint.fingerprint (key x) = Fingerprint.fingerprint k :=
      fun h => by rw [of_decide_eq_true h]
    have step := FingerprintTree.select_insert (fun x => decide (key x = k)) eq (ofList key xs).tree
    rw [List.filter_cons, ← ih]
    exact step

end FingerprintIndex

end LockAudit
