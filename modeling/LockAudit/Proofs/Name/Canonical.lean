import LockAudit.Name
import LockAudit.Proofs.Order.Permutation

/-! # Canonical names

A name and its canonical form behave alike: they count as true together, compare alike with every other
name and are the same number. Among names that can be looked up, those that compare as equal have one
canonical form, so an order of names tells different ones apart.
-/

namespace LockAudit

/-! ### Numbers -/

namespace Binary64

theorem unitsPerOne_pos : 0 < unitsPerOne := by
  unfold unitsPerOne
  generalize 1074 = n
  exact Nat.two_pow_pos n

theorem natAbs_signedUnits (negative : Bool) (units : Nat) :
    (signedUnits negative units).natAbs = units := by
  cases negative <;> simp [signedUnits]

/-- A count of units fixes the magnitude, and the sign too unless it is zero. -/
theorem eq_of_signedUnits_eq {s t : Bool} {m n : Nat} (h : signedUnits s m = signedUnits t n) :
    m = n ∧ (s = t ∨ m = 0) := by
  have hm : m = n := by
    rw [← natAbs_signedUnits s m, h, natAbs_signedUnits]
  subst hm
  refine ⟨rfl, ?_⟩
  cases s <;> cases t <;> simp [signedUnits] at h ⊢ <;> omega

theorem signedUnits_mul (negative : Bool) (m k : Nat) :
    signedUnits negative (m * k) = signedUnits negative m * Int.ofNat k := by
  cases negative with
  | false => simp [signedUnits]
  | true => exact Int.neg_mul_eq_neg_mul (Int.ofNat m) (Int.ofNat k)

theorem signedUnits_sign (i : Int) : signedUnits (i < 0) i.natAbs = i := by
  by_cases h : i < 0
  · simp only [signedUnits, h, decide_true, if_true, Int.ofNat_eq_natCast]
    omega
  · simp only [signedUnits, h, decide_false, Bool.false_eq_true, if_false, Int.ofNat_eq_natCast]
    omega

/-- A finite number counts in comparisons only by its units. -/
theorem lt_finite_congr {s t : Bool} {m n : Nat} (h : signedUnits s m = signedUnits t n) (y : Binary64) :
    (finite s m).lt y = (finite t n).lt y ∧ y.lt (finite s m) = y.lt (finite t n) := by
  cases y <;> simp [lt, h]

end Binary64

namespace Number

open Binary64

/-- The whole number that a number equals has the same exact value. -/
theorem signedUnits_whole {s : Bool} {m : Nat} {i : Int} (h : (real (.finite s m)).whole? = some i) :
    signedUnits (i < 0) (i.natAbs * unitsPerOne) = signedUnits s m := by
  simp only [whole?] at h
  split at h
  · rename_i hm
    cases h
    rw [signedUnits_mul, signedUnits_sign, ← signedUnits_mul,
      Nat.div_mul_cancel (Nat.dvd_of_mod_eq_zero hm)]
  · cases h

theorem whole?_real {x : Binary64} {i : Int} (h : (real x).whole? = some i) :
    ∃ s m, x = .finite s m ∧ signedUnits (i < 0) (i.natAbs * unitsPerOne) = signedUnits s m := by
  cases x with
  | finite s m => exact ⟨s, m, rfl, signedUnits_whole h⟩
  | nan => cases h
  | infinite s => cases h

theorem compare_whole {x : Binary64} {i : Int} (h : (real x).whole? = some i) (y : Number) :
    (whole i).compare y = (real x).compare y ∧ y.compare (whole i) = y.compare (real x) := by
  obtain ⟨s, m, rfl, hu⟩ := whole?_real h
  obtain ⟨hl, hr⟩ := lt_finite_congr hu y.exact
  have hlt : (whole i).lt y = (real (.finite s m)).lt y := hl
  have hgt : y.lt (whole i) = y.lt (real (.finite s m)) := hr
  simp only [Number.compare, hlt, hgt, isNaN, and_self]

theorem eq_of_exact_nan {x : Number} (h : x.exact = .nan) : x = real .nan := by
  cases x with
  | whole i => cases h
  | real y => exact congrArg real h

theorem eq_of_exact_infinite {x : Number} {s : Bool} (h : x.exact = .infinite s) :
    x = real (.infinite s) := by
  cases x with
  | whole i => cases h
  | real y => exact congrArg real h

theorem isNaN_iff (x : Number) : x.isNaN = true ↔ x.exact = .nan := by
  cases x with
  | whole i => simp [isNaN, exact]
  | real y => cases y <;> simp [isNaN, exact]

theorem compare_eq_eq {x y : Number} (h : x.compare y = .eq) :
    x.exact.lt y.exact = false ∧ y.exact.lt x.exact = false ∧ (x.exact = .nan ↔ y.exact = .nan) := by
  unfold Number.compare Number.lt at h
  cases hx : x.exact.lt y.exact with
  | true => simp [hx] at h
  | false =>
    cases hy : y.exact.lt x.exact with
    | true => simp [hx, hy] at h
    | false =>
      simp only [hx, hy, Bool.false_eq_true, if_false] at h
      refine ⟨rfl, rfl, ?_⟩
      rw [← isNaN_iff, ← isNaN_iff, Std.LawfulEqCmp.eq_of_compare h]

end Number

namespace Json

open Binary64

/-- The canonical form of a number goes by its exact value. -/
theorem canonical_ofNumber {x : Number} {s : Bool} {m : Nat} (h : x.exact = .finite s m) :
    (ofNumber x).canonical =
      if m % unitsPerOne = 0 then int (signedUnits s (m / unitsPerOne)) else real (.finite s m) := by
  cases x with
  | whole i =>
    simp only [Number.exact, Binary64.finite.injEq] at h
    obtain ⟨rfl, rfl⟩ := h
    rw [if_pos (Nat.mul_mod_left ..), Nat.mul_div_cancel _ unitsPerOne_pos, signedUnits_sign]
    exact canonical_int i
  | real y =>
    cases h
    simp only [ofNumber, canonical, Number.whole?]
    by_cases hm : m % unitsPerOne = 0
    · rw [if_pos hm, if_pos hm]
    · rw [if_neg hm, if_neg hm]

theorem canonical_of_number? {a : Json} {x : Number} (h : number? a = some x) :
    a.canonical = (ofNumber x).canonical := by
  cases a <;> cases h <;> simp [ofNumber, canonical]

theorem canonical_eq_of_compare {x y : Number} (h : x.compare y = .eq) :
    (ofNumber x).canonical = (ofNumber y).canonical := by
  obtain ⟨hx, hy, hn⟩ := Number.compare_eq_eq h
  cases hxe : x.exact with
  | nan =>
    obtain rfl := Number.eq_of_exact_nan hxe
    obtain rfl := Number.eq_of_exact_nan (hn.mp hxe)
    rfl
  | infinite s =>
    obtain rfl := Number.eq_of_exact_infinite hxe
    cases hye : y.exact with
    | nan => simp [hn.mpr hye] at hxe
    | infinite t =>
      obtain rfl := Number.eq_of_exact_infinite hye
      have hst : s = t := by
        cases s <;> cases t <;> simp [Number.exact, lt] at hx hy ⊢
      rw [hst]
    | finite t n => cases s <;> simp [hxe, hye, lt] at hx hy
  | finite s m =>
    cases hye : y.exact with
    | nan => simp [hn.mpr hye] at hxe
    | infinite t => cases t <;> simp [hxe, hye, lt] at hx hy
    | finite t n =>
      simp only [hxe, hye, lt, decide_eq_false_iff_not] at hx hy
      obtain ⟨rfl, hst⟩ := eq_of_signedUnits_eq (Int.le_antisymm (Int.not_lt.mp hy) (Int.not_lt.mp hx))
      rw [canonical_ofNumber hxe, canonical_ofNumber hye]
      rcases hst with rfl | rfl
      · rfl
      · cases s <;> cases t <;> simp [signedUnits]

theorem isEmpty_canonicalItems (xs : List Json) : (canonicalItems xs).isEmpty = xs.isEmpty := by
  cases xs <;> rfl

theorem isEmpty_sorted_canonicalFields (fs : List (String × Json)) :
    (sortOn Prod.fst (canonicalFields fs)).isEmpty = fs.isEmpty := by
  have hp := sortOn_perm Prod.fst (canonicalFields fs)
  rw [hp.isEmpty_eq]
  cases fs <;> rfl

@[simp] theorem truthy_canonical (a : Json) : a.canonical.truthy = a.truthy := by
  cases a with
  | null => rfl
  | bool b => cases b <;> simp [canonical, truthy]
  | int i => simp
  | real x =>
    cases h : (Number.real x).whole? with
    | none => simp [canonical, h]
    | some i =>
      obtain ⟨s, m, rfl, hu⟩ := Number.whole?_real h
      rw [signedUnits_mul, signedUnits_sign] at hu
      have hz : (i = 0) ↔ signedUnits s m = 0 := by
        have hne : Int.ofNat unitsPerOne ≠ 0 := by
          intro h0
          exact Nat.ne_of_gt unitsPerOne_pos (Int.ofNat.inj h0)
        rw [← hu, Int.mul_eq_zero, or_iff_left hne]
      have hzero : signedUnits false 0 = 0 := rfl
      simp only [canonical, h, truthy, Binary64.eq, Binary64.zero, hzero]
      rw [Bool.eq_iff_iff]
      simp [hz]
  | str s => simp
  | arr xs => simp [canonical, truthy, isEmpty_canonicalItems]
  | obj fs => simp [canonical, truthy, isEmpty_sorted_canonicalFields]

theorem canonical_eq_nan {a : Json} : a.canonical = real .nan ↔ a = real .nan := by
  cases a with
  | real x =>
    simp only [canonical]
    split
    · rename_i h
      obtain ⟨s, m, rfl, _⟩ := Number.whole?_real h
      simp
    · rfl
  | null | bool | int | str | arr | obj => simp [canonical]

end Json

namespace Name

theorem same_iff {a b : Name} : same a b = true ↔ a.canonical = b.canonical := by
  simp [same]

theorem same_symm {a b : Name} (h : same a b = true) : same b a = true :=
  same_iff.mpr (same_iff.mp h).symm

theorem same_trans {a b c : Name} (hab : same a b = true) (hbc : same b c = true) : same a c = true :=
  same_iff.mpr ((same_iff.mp hab).trans (same_iff.mp hbc))

theorem isKey_canonical (a : Name) : isKey a.canonical = isKey a := by
  cases a with
  | real x =>
    simp only [Json.canonical]
    split <;> rfl
  | null | bool | int | str | arr | obj => simp [Json.canonical, isKey]

theorem compare_canonical_left (a b : Name) : Name.compare a.canonical b = Name.compare a b := by
  cases a with
  | real x =>
    simp only [Json.canonical]
    split
    · rename_i i h
      cases b with
      | bool v => exact (Number.compare_whole h _).1
      | int j => exact (Number.compare_whole h _).1
      | real y => exact (Number.compare_whole h _).1
      | null | str | arr | obj => rfl
    · rfl
  | null | bool | int | str | arr | obj => cases b <;> simp [Json.canonical] <;> rfl

theorem compare_canonical_right (a b : Name) : Name.compare a b.canonical = Name.compare a b := by
  cases b with
  | real x =>
    simp only [Json.canonical]
    split
    · rename_i i h
      cases a with
      | bool v => exact (Number.compare_whole h _).2
      | int j => exact (Number.compare_whole h _).2
      | real y => exact (Number.compare_whole h _).2
      | null | str | arr | obj => rfl
    · rfl
  | null | bool | int | str | arr | obj => cases a <;> simp [Json.canonical] <;> rfl

/-- Names that can be looked up and compare as equal are the same. -/
theorem canonical_eq_of_compare {a b : Name} (ha : a.isKey = true) (hb : b.isKey = true)
    (h : Name.compare a b = .eq) : a.canonical = b.canonical := by
  have numbers : ∀ x y, Json.number? a = some x → Json.number? b = some y → x.compare y = .eq →
      a.canonical = b.canonical := by
    intro x y hx hy hxy
    rw [Json.canonical_of_number? hx, Json.canonical_of_number? hy]
    exact Json.canonical_eq_of_compare hxy
  cases a with
  | null =>
    cases b with
    | null => rfl
    | bool | int | real | str => cases h
    | arr | obj => cases hb
  | str s =>
    cases b with
    | str t =>
      change Ord.compare s t = .eq at h
      rw [Std.LawfulEqCmp.eq_of_compare h]
    | null | bool | int | real => cases h
    | arr | obj => cases hb
  | bool | int | real =>
    cases b with
    | bool | int | real => exact numbers _ _ rfl rfl h
    | null | str => cases h
    | arr | obj => cases hb
  | arr | obj => cases ha

/-! ### Names of one canonical form -/

section Congruence

variable {a a' b b' : Name} (ha : a.canonical = a'.canonical) (hb : b.canonical = b'.canonical)

include ha

theorem truthy_congr : a.truthy = a'.truthy := by
  rw [← Json.truthy_canonical a, ha, Json.truthy_canonical]

include hb

theorem same_congr : same a b = same a' b' := by
  simp only [same, ha, hb]

theorem equals_congr : equals a b = equals a' b' := by
  have hnan : a = .real .nan ↔ a' = .real .nan := by
    rw [← Json.canonical_eq_nan, ha, Json.canonical_eq_nan]
  have hne : (a != .real .nan) = (a' != .real .nan) := by
    rw [Bool.eq_iff_iff, bne_iff_ne, bne_iff_ne]
    exact not_congr hnan
  rw [equals, equals, hne, same_congr ha hb]

theorem compare_congr : Ord.compare a b = Ord.compare a' b' := by
  change Name.compare a b = Name.compare a' b'
  rw [← compare_canonical_left, ← compare_canonical_right, ha, hb, compare_canonical_right,
    compare_canonical_left]

end Congruence

end Name

/-! ### Names that are texts -/

theorem Name.exists_eq_map_str {names : List Name} (h : ∀ n ∈ names, n.isText = true) :
    ∃ texts : List String, names = texts.map Json.str := by
  induction names with
  | nil => exact ⟨[], rfl⟩
  | cons n names ih =>
    obtain ⟨hn, hnames⟩ := List.forall_mem_cons.mp h
    obtain ⟨texts, rfl⟩ := ih hnames
    cases n with
    | str s => exact ⟨s :: texts, rfl⟩
    | null | bool | int | real | arr | obj => cases hn

theorem Name.texts?_map_str (texts : List String) : texts? (texts.map Json.str) = some texts := by
  induction texts with
  | nil => rfl
  | cons s texts ih =>
    rw [texts?, List.map_cons, List.mapM_cons, ← texts?, ih]
    rfl

theorem Name.exists_texts? {names : List Name} (h : ∀ n ∈ names, n.isText = true) :
    ∃ texts, Name.texts? names = some texts := by
  obtain ⟨texts, rfl⟩ := Name.exists_eq_map_str h
  exact ⟨texts, Name.texts?_map_str texts⟩

end LockAudit
