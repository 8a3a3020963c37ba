import LockAudit.Order.Arrange
import LockAudit.Order.Sort

/-! # Keys that may lack an order

Nearly all keys are plain, and plain keys are totally ordered. Other keys are put in order as far as they
have one.
-/

namespace LockAudit

class Ranked (κ : Type) [Ord κ] where
  isPlain : κ → Bool
  /-- How any two keys stand to each other. -/
  relate : κ → κ → Relation

def orderOn? {α κ : Type} [Ord κ] [Ranked κ] (key : α → κ) (xs : List α) : Option (List α) :=
  if xs.all fun x => Ranked.isPlain (key x) then some (sortOn key xs)
  else arrange? (Relation.on Ranked.relate key) xs

def orderOn {α κ : Type} [Ord κ] [Ranked κ] (key : α → κ) (xs : List α) : List α :=
  (orderOn? key xs).getD xs

def haveOrder {κ : Type} [Ord κ] [Ranked κ] (xs : List κ) : Bool :=
  (orderOn? id xs).isSome

/-- With plain keys, values are sorted. -/
theorem orderOn?_of_plain {α κ : Type} [Ord κ] [Ranked κ] {key : α → κ} {xs : List α}
    (h : ∀ x ∈ xs, Ranked.isPlain (key x)) : orderOn? key xs = some (sortOn key xs) :=
  if_pos (List.all_eq_true.mpr h)

theorem orderOn_of_plain {α κ : Type} [Ord κ] [Ranked κ] {key : α → κ} {xs : List α}
    (h : ∀ x ∈ xs, Ranked.isPlain (key x)) : orderOn key xs = sortOn key xs := by
  rw [orderOn, orderOn?_of_plain h, Option.getD_some]

instance : Ranked String where
  isPlain _ := true
  relate := Relation.ofOrd

instance {κ : Type} [Ord κ] [Ranked κ] : Ranked (List κ) where
  isPlain ks := ks.all Ranked.isPlain
  relate := Relation.lists Ranked.relate

end LockAudit
