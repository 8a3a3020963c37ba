import LockAudit.Detection.Detect
import LockAudit.Proofs.Name.Canonical
import LockAudit.Proofs.Order.Sorted
import Mathlib.Data.List.SplitBy

/-! # Occurrences of one finding

Findings are gathered by sorting occurrences and cutting the list where the key changes. On paths whose
names can be looked up the order of keys tells different keys apart, so the occurrences of one finding
are at the same locations and on locks of the same classes.
-/

namespace LockAudit

/-! ### Orders that tell keys apart -/

instance : Std.LawfulEqOrd Location where
  compare_self := by
    intro a
    exact Ordering.then_eq_eq.mpr ⟨Std.ReflCmp.compare_self,
      Ordering.then_eq_eq.mpr ⟨Std.ReflCmp.compare_self, Std.ReflCmp.compare_self⟩⟩
  eq_of_compare := by
    intro a b h
    obtain ⟨hf, h⟩ := Ordering.then_eq_eq.mp h
    obtain ⟨hl, hc⟩ := Ordering.then_eq_eq.mp h
    have hfile : a.file = b.file := Std.LawfulEqCmp.eq_of_compare hf
    have hline : a.line = b.line := Std.LawfulEqCmp.eq_of_compare hl
    have hcolumn : a.column = b.column := Std.LawfulEqCmp.eq_of_compare hc
    cases a
    cases b
    simp_all

def Name.IsWord (n : Name) : Prop :=
  n.isKey = true ∧ n.canonical = n

theorem Name.isWord_canonical {n : Name} (h : n.isKey = true) : IsWord n.canonical := by
  refine ⟨by rw [isKey_canonical, h], ?_⟩
  cases n with
  | real x =>
    simp only [Json.canonical]
    split
    · simp
    · rename_i hw
      simp [Json.canonical, hw]
  | null | bool | int | str => simp [Json.canonical]
  | arr | obj => cases h

theorem Name.isWord_str (s : String) : IsWord (.str s) :=
  ⟨rfl, by simp⟩

theorem Name.eq_of_compare_words {xs ys : List Name} (hx : ∀ a ∈ xs, IsWord a) (hy : ∀ b ∈ ys, IsWord b)
    (h : compare xs ys = .eq) : xs = ys := by
  refine eq_of_compare_lists ?_ h
  intro a ha b hb hab
  obtain ⟨hak, hac⟩ := hx a ha
  obtain ⟨hbk, hbc⟩ := hy b hb
  rw [← hac, ← hbc]
  exact canonical_eq_of_compare hak hbk hab

namespace AliasClass

def IsKeyed (a : AliasClass) : Prop :=
  ∀ w ∈ a.words, Name.IsWord w

theorem words_injective {a b : AliasClass} (h : a.words = b.words) : a = b := by
  cases a <;> cases b <;> simp_all [words]

theorem eq_of_compare {a b : AliasClass} (ha : a.IsKeyed) (hb : b.IsKeyed) (h : compare a b = .eq) :
    a = b :=
  words_injective (Name.eq_of_compare_words ha hb h)

end AliasClass

theorem Event.isKeyed_aliasClass {e : Event} (h : e.isKeyed = true) : e.aliasClass.IsKeyed := by
  simp only [Event.isKeyed, Bool.and_eq_true, List.all_eq_true] at h
  have hn : ∀ n ∈ e.lock.names, n.isKey = true := h.1.1.1
  simp only [Lock.names, List.forall_mem_cons] at hn
  obtain ⟨hname, _, htype, hlock, _⟩ := hn
  have horElse : (e.lock.receiverType.orElse (.str "")).isKey = true := by
    unfold Name.orElse
    split
    · exact htype
    · rfl
  intro w hw
  unfold Event.aliasClass Lock.aliasClass at hw
  split at hw <;> simp only [AliasClass.words, List.mem_cons, List.not_mem_nil, or_false] at hw
  · rcases hw with rfl | rfl
    · exact Name.isWord_str _
    · exact Name.isWord_canonical hname
  · rcases hw with rfl | rfl | rfl
    · exact Name.isWord_str _
    · exact Name.isWord_canonical horElse
    · exact Name.isWord_canonical hname
  · rcases hw with rfl | rfl
    · exact Name.isWord_str _
    · exact Name.isWord_canonical hlock

namespace Detection

theorem DoubleLockKey.eq_of_compare {a b : DoubleLockKey} (ha : a.lockClass.IsKeyed)
    (hb : b.lockClass.IsKeyed) (h : compare a b = .eq) : a = b := by
  obtain ⟨hf, h⟩ := Ordering.then_eq_eq.mp h
  obtain ⟨hs, hc⟩ := Ordering.then_eq_eq.mp h
  have hfirst : a.first = b.first := Std.LawfulEqCmp.eq_of_compare hf
  have hsecond : a.second = b.second := Std.LawfulEqCmp.eq_of_compare hs
  have hclass : a.lockClass = b.lockClass := AliasClass.eq_of_compare ha hb hc
  cases a
  cases b
  simp_all

theorem InversionKey.eq_of_compare {a b : InversionKey} (ha : a.lower.IsKeyed ∧ a.upper.IsKeyed)
    (hb : b.lower.IsKeyed ∧ b.upper.IsKeyed) (h : compare a b = .eq) : a = b := by
  obtain ⟨hl, h⟩ := Ordering.then_eq_eq.mp h
  obtain ⟨hu, hp⟩ := Ordering.then_eq_eq.mp h
  have hlower : a.lower = b.lower := AliasClass.eq_of_compare ha.1 hb.1 hl
  have hupper : a.upper = b.upper := AliasClass.eq_of_compare ha.2 hb.2 hu
  have hplaces : a.locations = b.locations := Std.LawfulEqCmp.eq_of_compare hp
  cases a
  cases b
  simp_all

/-! ### Groups -/

section Groups

variable {α κ : Type} [Ord κ] {key : α → κ} {xs : List α}

def TellsApart (key : α → κ) (xs : List α) : Prop :=
  ∀ a ∈ xs, ∀ b ∈ xs, compare (key a) (key b) = .eq → key a = key b

def Gathered (key : α → κ) (xs group : List α) : Prop :=
  (∀ a ∈ group, a ∈ xs) ∧ ∀ a ∈ group, ∀ b ∈ group, key a = key b

theorem groupOn_gathered (hk : TellsApart key xs) {group : List α} (h : group ∈ groupOn key xs) :
    Gathered key xs group := by
  have hmem : ∀ a ∈ group, a ∈ xs := by
    intro a ha
    have hf : a ∈ (groupOn key xs).flatten := List.mem_flatten.mpr ⟨group, h, ha⟩
    rw [groupOn, List.flatten_splitBy] at hf
    exact (sortOn_perm key xs).mem_iff.mp hf
  have hchain : (group.map key).IsChain (· = ·) := by
    rw [List.isChain_map]
    refine (List.isChain_of_mem_splitBy h).imp_of_mem_imp ?_
    intro a b ha hb hab
    exact hk a (hmem a ha) b (hmem b hb) (beq_iff_eq.mp hab)
  refine ⟨hmem, ?_⟩
  intro a ha b hb
  exact hchain.pairwise.forall_of_forall (fun _ _ => rfl) (List.mem_map_of_mem ha)
    (List.mem_map_of_mem hb)

theorem groupByFirst_gathered (hk : TellsApart key xs) {group : List α}
    (h : group ∈ groupByFirst key xs) : Gathered key xs group := by
  obtain ⟨numbered, hn, rfl⟩ := List.mem_map.mp h
  have hin : ∀ x ∈ xs.zipIdx, x.1 ∈ xs := fun x hx => List.fst_mem_of_mem_zipIdx hx
  have hk' : TellsApart (fun x : α × Nat => key x.1) xs.zipIdx := fun a ha b hb =>
    hk a.1 (hin a ha) b.1 (hin b hb)
  obtain ⟨hmem, hkeys⟩ := groupOn_gathered hk' ((sortOn_perm _ _).mem_iff.mp hn)
  constructor
  · intro a ha
    obtain ⟨x, hx, rfl⟩ := List.mem_map.mp ha
    exact hin x (hmem x hx)
  · intro a ha b hb
    obtain ⟨x, hx, rfl⟩ := List.mem_map.mp ha
    obtain ⟨y, hy, rfl⟩ := List.mem_map.mp hb
    exact hkeys x hx y hy

theorem findings_gathered [Ranked κ] (hk : TellsApart key xs) {group : List α}
    (h : group ∈ findings key xs) : Gathered key xs group := by
  unfold findings at h
  cases hf : findings? key xs with
  | none => simp [hf] at h
  | some groups =>
    rw [hf, Option.getD_some] at h
    unfold findings? at hf
    split at hf
    · cases hf
      exact groupOn_gathered hk h
    · exact groupByFirst_gathered hk ((arrange?_perm hf).mem_iff.mp h)

end Groups

theorem mem_distinctChains {chains : List (List Name)} {chain : List Name}
    (h : chain ∈ distinctChains chains) : chain ∈ chains :=
  mem_of_mem_eraseDupsBy h

theorem mergedPossibility_eq_probably {grades : List Possibility}
    (h : mergedPossibility grades = .probably) : .probably ∈ grades := by
  unfold mergedPossibility at h
  split at h
  · rename_i hc
    exact List.contains_iff_mem.mp hc
  · cases h

end Detection

end LockAudit
