import LockAudit.Proofs.Order.Permutation

/-! # Sorted lists

Sorting puts the keys of a list in ascending order and leaves values with equal keys as they stand. So a
list that is sorted is told by its members and by the order among those that tie.
-/

namespace LockAudit

variable {α κ : Type} [Ord κ]

def NotAfter (key : α → κ) (a b : α) : Prop :=
  (compare (key a) (key b)).isLE = true

def ties (key : α → κ) (a b : α) : Bool :=
  compare (key a) (key b) == .eq

theorem ties_iff {key : α → κ} {a b : α} : ties key a b = true ↔ compare (key a) (key b) = .eq :=
  beq_iff_eq

theorem sortOn_eq_self {key : α → κ} {xs : List α} (h : xs.Pairwise (NotAfter key)) :
    sortOn key xs = xs :=
  List.mergeSort_of_pairwise h

variable [Std.TransOrd κ]

instance (key : α → κ) : Std.Refl (NotAfter key) :=
  ⟨fun a => by rw [NotAfter, Std.ReflOrd.compare_self]; rfl⟩

theorem NotAfter.trans {key : α → κ} {a b c : α} (hab : NotAfter key a b) (hbc : NotAfter key b c) :
    NotAfter key a c :=
  Std.TransOrd.isLE_trans hab hbc

theorem notAfter_total (key : α → κ) (a b : α) :
    ((compareOn key a b).isLE || (compareOn key b a).isLE) = true := by
  simp only [compareOn]
  rw [Std.OrientedOrd.eq_swap (a := key b)]
  cases compare (key a) (key b) <;> rfl

theorem sortOn_ascending (key : α → κ) (xs : List α) : (sortOn key xs).Pairwise (NotAfter key) := by
  refine List.pairwise_mergeSort ?_ (notAfter_total key) xs
  intro a b c hab hbc
  exact (NotAfter.trans hab hbc : NotAfter key a c)

theorem sortOn_rising {key : α → κ} {xs : List α}
    (hk : ∀ a ∈ xs, ∀ b ∈ xs, compare (key a) (key b) = .eq → key a = key b)
    (hn : (xs.map key).Nodup) :
    (sortOn key xs).Pairwise fun a b => compare (key a) (key b) = .lt := by
  have hne : (sortOn key xs).Pairwise fun a b => key a ≠ key b :=
    List.pairwise_map.mp (((sortOn_perm key xs).map key).nodup_iff.mpr hn)
  refine ((sortOn_ascending key xs).and hne).imp_of_mem ?_
  intro a b ha hb hab
  have hapart := hk a ((sortOn_perm key xs).mem_iff.mp ha) b ((sortOn_perm key xs).mem_iff.mp hb)
  have hle : (compare (key a) (key b)).isLE = true := hab.1
  cases hc : compare (key a) (key b) with
  | lt => rfl
  | eq => exact absurd (hapart hc) hab.2
  | gt => simp [hc] at hle

/-- A list in strictly ascending order is told by its members. -/
theorem eq_of_rising (key : α → κ) {xs ys : List α}
    (hx : xs.Pairwise fun a b => compare (key a) (key b) = .lt)
    (hy : ys.Pairwise fun a b => compare (key a) (key b) = .lt) (h : ∀ a, a ∈ xs ↔ a ∈ ys) :
    xs = ys := by
  have hirrefl : ∀ a b, compare (key a) (key b) = .lt → a ≠ b := by
    rintro a b hab rfl
    rw [Std.ReflOrd.compare_self] at hab
    cases hab
  have hperm : xs.Perm ys :=
    (List.perm_ext_iff_of_nodup (hx.imp fun {a b} => hirrefl a b)
      (hy.imp fun {a b} => hirrefl a b)).mpr h
  refine hperm.eq_of_pairwise ?_ hx hy
  intro a b _ _ hab hba
  rw [Std.OrientedOrd.eq_swap, hba] at hab
  cases hab

/-- A list without ties between different members has one sorted order. -/
theorem sortOn_eq_of_perm {key : α → κ} {xs ys : List α}
    (hties : ∀ a ∈ xs, ∀ b ∈ xs, compare (key a) (key b) = .eq → a = b) (h : xs.Perm ys) :
    sortOn key xs = sortOn key ys := by
  have hp : (sortOn key xs).Perm (sortOn key ys) :=
    (sortOn_perm key xs).trans (h.trans (sortOn_perm key ys).symm)
  refine hp.eq_of_pairwise ?_ (sortOn_ascending key xs) (sortOn_ascending key ys)
  intro a b ha hb hab hba
  have hax : a ∈ xs := (sortOn_perm key xs).mem_iff.mp ha
  have hbx : b ∈ xs := h.mem_iff.mpr ((sortOn_perm key ys).mem_iff.mp hb)
  exact hties a hax b hbx (Std.OrientedCmp.isLE_antisymm hab hba)

/-! ### Ties -/

theorem ties_self (key : α → κ) (a : α) : ties key a a = true :=
  ties_iff.mpr Std.ReflOrd.compare_self

theorem ties_congr {key : α → κ} {a b : α} (h : ties key a b = true) (c : α) :
    ties key a c = ties key b c := by
  simp only [ties, Std.TransCmp.congr_left (ties_iff.mp h)]

/-- Sorting leaves values that tie as they stand. -/
theorem filter_sortOn (key : α → κ) (xs : List α) (a : α) :
    (sortOn key xs).filter (ties key a) = xs.filter (ties key a) := by
  have htied : (xs.filter (ties key a)).Pairwise fun b c => (compareOn key b c).isLE = true := by
    refine List.pairwise_of_forall_mem_list ?_
    intro b hb c hc
    have hab := (List.mem_filter.mp hb).2
    have hbc : ties key b c = true := by rw [← ties_congr hab c, (List.mem_filter.mp hc).2]
    rw [compareOn, ties_iff.mp hbc]
    rfl
  have htrans : ∀ b c d, (compareOn key b c).isLE = true → (compareOn key c d).isLE = true →
      (compareOn key b d).isLE = true := fun _ _ _ => Std.TransOrd.isLE_trans
  have hsub : (xs.filter (ties key a)).Sublist (sortOn key xs) :=
    List.sublist_mergeSort htrans (notAfter_total key) htied List.filter_sublist
  have hfiltered := hsub.filter (ties key a)
  rw [List.filter_filter] at hfiltered
  simp only [Bool.and_self] at hfiltered
  exact (hfiltered.eq_of_length ((sortOn_perm key xs).filter _).length_eq.symm).symm

theorem mem_iff_of_filter_ties {key : α → κ} {xs ys : List α}
    (h : ∀ a, xs.filter (ties key a) = ys.filter (ties key a)) (a : α) : a ∈ xs ↔ a ∈ ys := by
  have ha := congrArg (a ∈ ·) (h a)
  simpa [List.mem_filter, ties_self key a] using ha

/-- Two ascending lists are one list if they agree on every set of ties. -/
theorem eq_of_filter_ties {key : α → κ} {xs ys : List α} (hx : xs.Pairwise (NotAfter key))
    (hy : ys.Pairwise (NotAfter key))
    (h : ∀ a, xs.filter (ties key a) = ys.filter (ties key a)) : xs = ys := by
  have hmem := mem_iff_of_filter_ties h
  induction xs generalizing ys with
  | nil =>
    symm
    exact List.eq_nil_iff_forall_not_mem.mpr fun a ha => List.not_mem_nil ((hmem a).mpr ha)
  | cons x xs ih =>
    obtain ⟨y, ys, rfl⟩ := List.exists_cons_of_ne_nil (List.ne_nil_of_mem ((hmem x).mp List.mem_cons_self))
    have hxy : NotAfter key x y := by
      rcases List.mem_cons.mp ((hmem y).mpr List.mem_cons_self) with rfl | hin
      · exact Std.Refl.refl _
      · exact (List.pairwise_cons.mp hx).1 y hin
    have hyx : NotAfter key y x := by
      rcases List.mem_cons.mp ((hmem x).mp List.mem_cons_self) with rfl | hin
      · exact Std.Refl.refl _
      · exact (List.pairwise_cons.mp hy).1 x hin
    -- the heads tie, so both head the list of what ties with them
    have htie : ties key x y = true := ties_iff.mpr (Std.OrientedCmp.isLE_antisymm hxy hyx)
    have hheads := h x
    rw [List.filter_cons_of_pos (ties_self key x), List.filter_cons_of_pos htie] at hheads
    obtain ⟨rfl, _⟩ := List.cons.inj hheads
    have htails : ∀ a, xs.filter (ties key a) = ys.filter (ties key a) := by
      intro a
      have ha := h a
      simp only [List.filter_cons] at ha
      split at ha
      · exact (List.cons.inj ha).2
      · exact ha
    rw [ih hx.tail hy.tail htails (mem_iff_of_filter_ties htails), List.tail_cons]

/-- Lists that agree on every set of ties are sorted to one list. -/
theorem sortOn_eq_of_ties {key : α → κ} {xs ys : List α}
    (h : ∀ a, xs.filter (ties key a) = ys.filter (ties key a)) : sortOn key xs = sortOn key ys := by
  refine eq_of_filter_ties (sortOn_ascending key xs) (sortOn_ascending key ys) fun a => ?_
  rw [filter_sortOn, filter_sortOn, h a]

/-! ### Lists -/

/-- The order of lists tells them apart wherever that of their members does. -/
theorem eq_of_compare_lists {α : Type} [Ord α] {xs ys : List α}
    (hxy : ∀ a ∈ xs, ∀ b ∈ ys, compare a b = .eq → a = b) (h : compare xs ys = .eq) : xs = ys := by
  change List.compareLex compare xs ys = .eq at h
  induction xs generalizing ys with
  | nil =>
    cases ys with
    | nil => rfl
    | cons b ys => cases h
  | cons a xs ih =>
    cases ys with
    | nil => cases h
    | cons b ys =>
      rw [List.compareLex_cons_cons] at h
      obtain ⟨hab, h⟩ := Ordering.then_eq_eq.mp h
      have hrest := fun a' ha b' hb => hxy a' (List.mem_cons_of_mem _ ha) b' (List.mem_cons_of_mem _ hb)
      rw [hxy a List.mem_cons_self b List.mem_cons_self hab, ih hrest h]

end LockAudit
