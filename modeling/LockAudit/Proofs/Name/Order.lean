import LockAudit.Path
import LockAudit.Proofs.Name.Canonical
import LockAudit.Proofs.Order.Sorted

/-! # The order of names, classes and paths

Names are compared by their sort, then by their text or their value, so comparing them is transitive
whatever names there are, and so is comparing what is made up of names. Between texts it is the same order
as the one in which values are arranged one by one.
-/

namespace LockAudit

/-! ### Numbers -/

namespace Binary64

/-- The place of the sort of a number: negative infinity, the finite numbers, infinity and NaN. -/
def sortRank : Binary64 → Nat
  | infinite true => 0
  | finite _ _ => 1
  | infinite false => 2
  | nan => 3

def place : Binary64 → Int
  | finite s m => signedUnits s m
  | _ => 0

theorem compare_ranks (a b : Binary64) :
    (if a.lt b then .lt else if b.lt a then .gt else
      compare (decide (a = nan)) (decide (b = nan))) =
        (compare a.sortRank b.sortRank).then (compare a.place b.place) := by
  cases a with
  | nan =>
    cases b with
    | nan | finite => rfl
    | infinite t => cases t <;> rfl
  | infinite s =>
    cases b with
    | nan | finite => cases s <;> rfl
    | infinite t => cases s <;> cases t <;> rfl
  | finite s m =>
    cases b with
    | nan => rfl
    | infinite t => cases t <;> rfl
    | finite t n =>
      have hv := Int.compare_eq_ite_lt (signedUnits s m) (signedUnits t n)
      simp [Binary64.lt, sortRank, place, hv]

end Binary64

namespace Number

theorem compare_eq_ranks (x y : Number) :
    x.compare y = compareLex (compareOn fun x : Number => x.exact.sortRank)
      (compareOn fun x : Number => x.exact.place) x y := by
  have hnan : ∀ z : Number, z.isNaN = decide (z.exact = .nan) := by
    intro z
    rw [Bool.eq_iff_iff, isNaN_iff, decide_eq_true_iff]
  simp only [Number.compare, Number.lt, hnan]
  exact Binary64.compare_ranks x.exact y.exact

end Number

/-! ### Names -/

namespace Name

def text : Name → String
  | .str s => s
  | _ => ""

def number (n : Name) : Binary64 :=
  ((Json.number? n).getD (.whole 0)).exact

def compareParts : Name → Name → Ordering :=
  compareLex (compareOn sortRank) (compareLex (compareOn text)
    (compareLex (compareOn fun n => n.number.sortRank) (compareOn fun n => n.number.place)))

theorem compare_of_sortRank_ne {a b : Name} (h : sortRank a ≠ sortRank b) :
    Name.compare a b = compare (sortRank a) (sortRank b) := by
  cases a <;> cases b <;> simp [sortRank] at h <;> rfl

theorem compare_eq_parts (a b : Name) : Name.compare a b = compareParts a b := by
  by_cases h : sortRank a = sortRank b
  · cases a <;> cases b <;> simp [sortRank] at h <;>
      simp [Name.compare, compareParts, compareLex, compareOn, sortRank, text, number, Json.number?,
        Number.compare_eq_ranks]
  · have hne : compare (sortRank a) (sortRank b) ≠ .eq := fun he => h (Std.LawfulEqCmp.eq_of_compare he)
    rw [compare_of_sortRank_ne h]
    simp only [compareParts, compareLex, compareOn]
    cases hc : compare (sortRank a) (sortRank b) with
    | lt | gt => rfl
    | eq => exact absurd hc hne

end Name

instance : Std.TransOrd Json := by
  have h : (compare : Json → Json → Ordering) = Name.compareParts :=
    funext fun a => funext fun b => Name.compare_eq_parts a b
  unfold Std.TransOrd
  rw [h]
  unfold Name.compareParts
  infer_instance

/-! ### What is made up of names -/

instance : Std.TransOrd AliasClass :=
  inferInstanceAs (Std.TransCmp (compareOn AliasClass.words))

instance : Std.TransOrd Location :=
  inferInstanceAs (Std.TransCmp (compareLex (compareOn Location.file)
    (compareLex (compareOn Location.line) (compareOn Location.column))))

instance : Std.TransOrd Event :=
  inferInstanceAs (Std.TransCmp (compareLex (compareOn fun e : Event => e.location.render)
    (compareLex (compareOn fun e : Event => e.op.name) (compareOn Event.chain))))

instance : Std.TransOrd LockPath :=
  inferInstanceAs (Std.TransCmp (compareLex (compareOn LockPath.root)
    (compareLex (compareOn LockPath.events) (compareOn LockPath.degraded))))

/-! ### Texts -/

theorem Name.relate_eq_ofOrd {a b : Name} (ha : a.isText = true) (hb : b.isText = true) :
    Ranked.relate a b = Relation.ofOrd a b := by
  cases a <;> cases ha
  cases b <;> cases hb
  rfl

theorem Relation.lists_eq_ofOrd {α : Type} [Ord α] {r : α → α → Relation} {xs ys : List α}
    (h : ∀ a ∈ xs, ∀ b ∈ ys, r a b = ofOrd a b) : lists r xs ys = ofOrd xs ys := by
  induction xs generalizing ys with
  | nil => cases ys <;> rfl
  | cons a xs ih =>
    cases ys with
    | nil => rfl
    | cons b ys =>
      have hrest : lists r xs ys = ofOrd xs ys :=
        ih fun a' ha b' hb => h a' (List.mem_cons_of_mem _ ha) b' (List.mem_cons_of_mem _ hb)
      have hcons : compare (a :: xs) (b :: ys) = (compare a b).then (compare xs ys) :=
        List.compareLex_cons_cons
      rw [lists, h a List.mem_cons_self b List.mem_cons_self, ofOrd, ofOrd, hcons, hrest, ofOrd]
      cases compare a b <;> rfl

theorem AliasClass.relate_eq_ofOrd {a b : AliasClass} (ha : Ranked.isPlain a = true)
    (hb : Ranked.isPlain b = true) : Ranked.relate a b = Relation.ofOrd a b :=
  Relation.lists_eq_ofOrd fun _ hx _ hy =>
    Name.relate_eq_ofOrd (List.all_eq_true.mp ha _ hx) (List.all_eq_true.mp hb _ hy)

theorem Name.isText_canonical (a : Name) : isText a.canonical = isText a := by
  cases a with
  | real x =>
    simp only [Json.canonical]
    split <;> rfl
  | null | bool | int | str | arr | obj => simp [Json.canonical, isText]

theorem Name.isText_of_same {a b : Name} (h : same a b = true) (hb : b.isText = true) :
    a.isText = true := by
  rw [← isText_canonical, same_iff.mp h, isText_canonical]
  exact hb

theorem Name.isKey_of_isText {a : Name} (h : a.isText = true) : a.isKey = true := by
  cases a <;> first | rfl | cases h

theorem Name.canonical_of_isText {a : Name} (h : a.isText = true) : a.canonical = a := by
  cases a <;> first | exact Json.canonical_str _ | cases h

theorem Name.eq_of_same_texts {a b : Name} (ha : a.isText = true) (hb : b.isText = true)
    (h : a.same b = true) : a = b := by
  rw [← canonical_of_isText ha, ← canonical_of_isText hb]
  exact same_iff.mp h

theorem Name.same_iff_eq {a b : Name} (ha : a.isText = true) : a.same b = true ↔ a = b := by
  constructor
  · intro h
    have hback : b.same a = true := same_symm h
    exact eq_of_same_texts ha (isText_of_same hback ha) h
  · rintro rfl
    exact same_self a

theorem Name.eq_of_compare_texts {a b : Name} (ha : a.isText = true) (hb : b.isText = true)
    (h : compare a b = .eq) : a = b := by
  match a, b, ha, hb with
  | .str s, .str t, _, _ =>
    have hst : compare s t = .eq := h
    rw [Std.LawfulEqCmp.eq_of_compare hst]

theorem Name.ne_of_compare_lt {a b : Name} (h : compare a b = .lt) : a ≠ b := by
  rintro rfl
  have hself : compare a a = .eq := Std.ReflCmp.compare_self
  rw [hself] at h
  cases h

theorem sortOn_texts_rising {names : List Name} (h : ∀ n ∈ names, n.isText = true)
    (hn : names.Nodup) : (sortOn id names).Pairwise fun a b => compare a b = .lt := by
  refine sortOn_rising ?_ (by simpa using hn)
  exact fun a ha b hb => Name.eq_of_compare_texts (h a ha) (h b hb)

theorem haveOrder_of_texts {names : List Name} (h : ∀ n ∈ names, n.isText = true) :
    haveOrder names = true := by
  rw [haveOrder, orderOn?_of_plain h]
  rfl

end LockAudit
