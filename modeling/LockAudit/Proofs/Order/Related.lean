import LockAudit.Proofs.Order.Permutation
import Mathlib.Data.List.Forall2

/-! # Lists whose elements correspond

Where the elements of two lists correspond one by one, so do those that a search or an ordering picks, as
long as it goes by what corresponding elements share.
-/

namespace LockAudit

variable {α β : Type} {R : α → β → Prop} {xs : List α} {ys : List β}

theorem exists_of_forall₂ (h : List.Forall₂ R xs ys) {x : α} (hx : x ∈ xs) : ∃ y ∈ ys, R x y := by
  induction h with
  | nil => cases hx
  | cons hr _ ih =>
    rcases List.mem_cons.mp hx with rfl | hx
    · exact ⟨_, List.mem_cons_self, hr⟩
    · obtain ⟨y, hy, hxy⟩ := ih hx
      exact ⟨y, List.mem_cons_of_mem _ hy, hxy⟩

theorem forall₂_exists_left (h : List.Forall₂ R xs ys) {y : β} (hy : y ∈ ys) : ∃ x ∈ xs, R x y :=
  exists_of_forall₂ h.flip hy

theorem rel_getElem? (h : List.Forall₂ R xs ys) (i : Nat) : Option.Rel R xs[i]? ys[i]? := by
  induction h generalizing i with
  | nil => exact .none
  | cons hab _ ih =>
    cases i with
    | zero => exact .some hab
    | succ i => exact ih i

theorem rel_find? {p : α → Bool} {q : β → Bool} (hpq : ∀ a b, R a b → q b = p a)
    (h : List.Forall₂ R xs ys) : Option.Rel R (xs.find? p) (ys.find? q) := by
  induction h with
  | nil => exact .none
  | cons hab _ ih =>
    rw [List.find?_cons, List.find?_cons, hpq _ _ hab]
    split
    · exact .some hab
    · exact ih

theorem option_rel_cases {o : Option α} {o' : Option β} (h : Option.Rel R o o') :
    (o = none ∧ o' = none) ∨ ∃ a b, o = some a ∧ o' = some b ∧ R a b := by
  cases h with
  | none => exact .inl ⟨rfl, rfl⟩
  | some hab => exact .inr ⟨_, _, rfl, rfl, hab⟩

theorem isSome_eq_of_rel {o : Option α} {o' : Option β} (h : Option.Rel R o o') :
    o'.isSome = o.isSome := by
  cases h <;> rfl

theorem any_eq_of_forall₂ {p : α → Bool} {q : β → Bool} (hpq : ∀ a b, R a b → q b = p a)
    (h : List.Forall₂ R xs ys) : ys.any q = xs.any p := by
  induction h with
  | nil => rfl
  | cons hab _ ih => rw [List.any_cons, List.any_cons, hpq _ _ hab, ih]

theorem flatMap_eq_of_forall₂ {γ : Type} {f : α → List γ} {g : β → List γ}
    (hfg : ∀ a b, R a b → g b = f a) (h : List.Forall₂ R xs ys) : ys.flatMap g = xs.flatMap f := by
  induction h with
  | nil => rfl
  | cons hab _ ih => rw [List.flatMap_cons, List.flatMap_cons, hfg _ _ hab, ih]

/-- Sorting by keys that related values share keeps them side by side. -/
theorem forall₂_sortOn {κ : Type} [Ord κ] {key : α → κ} {key' : β → κ}
    (hkey : ∀ a b, R a b → key' b = key a) (h : List.Forall₂ R xs ys) :
    List.Forall₂ R (sortOn key xs) (sortOn key' ys) := by
  obtain ⟨zs, hzs, rfl, rfl⟩ : ∃ zs : List (α × β), (∀ z ∈ zs, R z.1 z.2) ∧
      xs = zs.map Prod.fst ∧ ys = zs.map Prod.snd := by
    induction h with
    | nil => exact ⟨[], by simp, rfl, rfl⟩
    | @cons a b _ _ hab _ ih =>
      obtain ⟨zs, hzs, rfl, rfl⟩ := ih
      exact ⟨(a, b) :: zs, List.forall_mem_cons.mpr ⟨hab, hzs⟩, rfl, rfl⟩
  let before (y z : α × β) : Bool := (compareOn (fun z => key z.1) y z).isLE
  have hfst : sortOn key (zs.map Prod.fst) = (zs.mergeSort before).map Prod.fst := by
    refine (List.map_mergeSort (r := before) fun _ _ _ _ => ?_).symm
    rfl
  have hsnd : sortOn key' (zs.map Prod.snd) = (zs.mergeSort before).map Prod.snd := by
    refine (List.map_mergeSort (r := before) fun y hy z hz => ?_).symm
    simp only [before, compareOn, hkey _ _ (hzs y hy), hkey _ _ (hzs z hz)]
  rw [hfst, hsnd, List.forall₂_map_left_iff, List.forall₂_map_right_iff, List.forall₂_same]
  exact fun z hz => hzs z (List.mem_mergeSort.mp hz)

end LockAudit
