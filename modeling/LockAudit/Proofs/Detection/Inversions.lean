import LockAudit.Proofs.Detection.Answer
import LockAudit.Proofs.Detection.LockOrder

/-! # Order inversions are found exactly

Detection reports a conflict of two classes where, and only where, two different paths order them in
opposite ways. Each pair of classes with the four locations has one report, in the order in which the
smaller class stands first, and it merges the grades and the call chains of all such pairs of paths.
-/

namespace LockAudit

def AliasClass.IsStatic (a : AliasClass) : Prop :=
  ∃ name, a = .static name

theorem Lock.isStatic_aliasClass {l : Lock} : l.aliasClass.IsStatic ↔ l.site = .static := by
  unfold AliasClass.IsStatic Lock.aliasClass
  cases l.site <;> simp

/-- Locks of different paths are surely one lock only where they are static. -/
theorem Lock.tier?_false_eq_exact {first second : Lock} :
    first.tier? second false = some .exact ↔
      first.aliasClass = second.aliasClass ∧ first.aliasClass.IsStatic := by
  unfold Lock.tier?
  rw [isStatic_aliasClass]
  by_cases h : first.aliasClass = second.aliasClass
  · rw [if_neg (not_not.mpr h), and_iff_right h]
    cases first.site <;> simp
  · simp [h]

namespace Detection

variable {paths : List LockPath} {k : InversionKey} {p q : LockPath} {m n : Nesting}

/-- One path takes the lower class before the upper one, and another path the other way round. -/
structure Conflicts (paths : List LockPath) (k : InversionKey) (p q : LockPath) (m n : Nesting) :
    Prop where
  forwardPath : p ∈ paths
  backwardPath : q ∈ paths
  different : p.canonical ≠ q.canonical
  forward : m.IsWitness p
  backward : n.IsWitness q
  forwardClasses : (m.firstClass, m.secondClass) = (k.lower, k.upper)
  backwardClasses : (n.firstClass, n.secondClass) = (k.upper, k.lower)
  locations : k.locations = [m.first.event.location, m.second.event.location,
    n.first.event.location, n.second.event.location]

/-- Each path surely waits for the lock that the other holds. -/
structure MutuallyBlock (p q : LockPath) (m n : Nesting) : Prop where
  firstStatic : m.firstClass.IsStatic
  secondStatic : m.secondClass.IsStatic
  forwardTracked : p.degraded = false
  backwardTracked : q.degraded = false
  firstUnshared : ¬ (m.first.event.kind.isShared = true ∧ n.second.event.kind.isShared = true)
  secondUnshared : ¬ (n.first.event.kind.isShared = true ∧ m.second.event.kind.isShared = true)

structure ReportsConflict (paths : List LockPath) (k : InversionKey) (r : Report) : Prop where
  shown : ∃ p q m n d e, Conflicts paths k p q m n ∧ r.subject = .conflictLock [d, e] ∧
    Shows d m.first.event m.second.event ∧
    Shows e n.first.event n.second.event ∧
    ListsChains d.chains (fun c => ∃ p q m n, Conflicts paths k p q m n ∧ m.second.event.chain = c) ∧
    ListsChains e.chains fun c => ∃ p q m n, Conflicts paths k p q m n ∧ n.second.event.chain = c
  graded : r.possibility = .probably ↔
    ∃ p q m n, Conflicts paths k p q m n ∧ MutuallyBlock p q m n

/-! ### Grades -/

theorem surelyWaits_iff {w next : Witness} (hpath : w.path ≠ next.path)
    (hclass : next.nesting.firstClass = w.nesting.secondClass) :
    surelyWaits w next = true ↔ w.nesting.secondClass.IsStatic ∧ w.degraded = false ∧
      ¬ (next.first.kind.isShared = true ∧ w.second.kind.isShared = true) := by
  have hother : (w.path == next.path) = false := beq_eq_false_iff_ne.mpr hpath
  have htier : (next.first.lock.tier? w.second.lock false == some .exact) = true ↔
      w.nesting.secondClass.IsStatic := by
    have hlocks : next.first.lock.aliasClass = w.second.lock.aliasClass := hclass
    rw [beq_iff_eq, Lock.tier?_false_eq_exact, and_iff_right hlocks, hlocks]
    exact Iff.rfl
  simp only [surelyWaits, hother, Bool.false_and, Bool.and_eq_true, htier, Bool.not_eq_true',
    ← Bool.not_eq_true, and_assoc]

theorem conflictPossibility_pair {v w : Witness} :
    conflictPossibility [v, w] = .probably ↔ surelyWaits v w = true ∧ surelyWaits w v = true := by
  by_cases h : surelyWaits v w = true ∧ surelyWaits w v = true
  · simp [conflictPossibility, waitsAround, h]
  · simp [conflictPossibility, waitsAround, h]

theorem possibility_iff {i : Inversion} (hi : i ∈ inversions (witnesses (prepare paths)))
    (hp : i.forward.Of paths p) (hq : i.backward.Of paths q) :
    i.possibility = .probably ↔ MutuallyBlock p q i.forward.nesting i.backward.nesting := by
  obtain ⟨_, _, hedge, _, hpath⟩ := mem_inversions.mp hi
  obtain ⟨hfirst, hsecond⟩ := Prod.mk.inj hedge
  rw [Inversion.possibility, conflictPossibility_pair, surelyWaits_iff hpath hfirst,
    surelyWaits_iff hpath.symm hsecond.symm, hp.degraded, hq.degraded, hsecond]
  constructor
  · rintro ⟨⟨hs, hpd, hsu⟩, hf, hqd, hfu⟩
    exact ⟨hf, hs, hpd, hqd, hfu, hsu⟩
  · intro h
    exact ⟨⟨h.secondStatic, h.forwardTracked, h.secondUnshared⟩, h.firstStatic, h.backwardTracked,
      h.firstUnshared⟩

/-- How names are spelled does not count for whether two paths block each other. -/
theorem MutuallyBlock.congr {p' q' : LockPath} {m' n' : Nesting} (h : MutuallyBlock p q m n)
    (hp : p'.canonical = p.canonical) (hq : q'.canonical = q.canonical) (hm : m'.Alike m)
    (hn : n'.Alike n) : MutuallyBlock p' q' m' n' := by
  obtain ⟨_, hmf, _⟩ := unspelled_congr hm.first
  obtain ⟨_, hms, _⟩ := unspelled_congr hm.second
  obtain ⟨_, hnf, _⟩ := unspelled_congr hn.first
  obtain ⟨_, hns, _⟩ := unspelled_congr hn.second
  refine ⟨?_, ?_, (degraded_congr hp).trans h.forwardTracked, (degraded_congr hq).trans h.backwardTracked,
    ?_, ?_⟩
  · rw [hm.firstClass]
    exact h.firstStatic
  · rw [hm.secondClass]
    exact h.secondStatic
  · rw [hmf, hns]
    exact h.firstUnshared
  · rw [hnf, hms]
    exact h.secondUnshared

/-! ### Conflicts and inversions -/

/-- An inversion that detection gathers is a conflict of the given paths. -/
theorem conflicts_of_mem {i : Inversion} (hi : i ∈ inversions (witnesses (prepare paths))) :
    Ranked.relate i.key.lower i.key.upper ≠ .after ∧
      ∃ p q, Conflicts paths i.key p q i.forward.nesting i.backward.nesting ∧
        (i.possibility = .probably ↔ MutuallyBlock p q i.forward.nesting i.backward.nesting) := by
  obtain ⟨hforward, hbackward, hedge, hrelate, hpath⟩ := mem_inversions.mp hi
  obtain ⟨p, hp⟩ := mem_witnesses.mp hforward
  obtain ⟨q, hq⟩ := mem_witnesses.mp hbackward
  have hdifferent : p.canonical ≠ q.canonical := fun he => hpath ((hp.path_eq_iff hq).mpr he)
  exact ⟨hrelate, p, q, ⟨hp.mem, hq.mem, hdifferent, hp.nesting, hq.nesting, rfl, hedge, rfl⟩,
    possibility_iff hi hp hq⟩

/-- A conflict of the given paths is gathered, perhaps from paths that are spelled differently. -/
theorem Conflicts.exists_mem (h : Conflicts paths k p q m n)
    (hrelate : Ranked.relate k.lower k.upper ≠ .after) :
    ∃ i ∈ inversions (witnesses (prepare paths)), i.key = k ∧ i.forward.nesting.Alike m ∧
      i.backward.nesting.Alike n ∧ (MutuallyBlock p q m n → i.possibility = .probably) := by
  obtain ⟨v, p', hv, hpp, hvm⟩ := exists_witness h.forwardPath h.forward
  obtain ⟨w, q', hw, hqq, hwn⟩ := exists_witness h.backwardPath h.backward
  have hforward : v.edge = (k.lower, k.upper) :=
    (Prod.ext hvm.firstClass hvm.secondClass).trans h.forwardClasses
  have hbackward : w.edge = (k.upper, k.lower) :=
    (Prod.ext hwn.firstClass hwn.secondClass).trans h.backwardClasses
  have hpath : v.path ≠ w.path := by
    rw [ne_eq, hv.path_eq_iff hw, hpp, hqq]
    exact h.different
  have hi : (⟨v, w⟩ : Inversion) ∈ inversions (witnesses (prepare paths)) := by
    refine mem_inversions.mpr ⟨mem_witnesses.mpr ⟨_, hv⟩, mem_witnesses.mpr ⟨_, hw⟩, ?_, ?_, hpath⟩
    · rw [hbackward, hforward]
    · rw [hforward]
      exact hrelate
  refine ⟨_, hi, ?_, hvm, hwn, fun hb => (possibility_iff hi hv hw).mpr (hb.congr hpp hqq hvm hwn)⟩
  have hlocations : (Inversion.key ⟨v, w⟩).locations = k.locations := by
    rw [h.locations]
    simp only [Inversion.key, Witness.first, Witness.second, (unspelled_congr hvm.first).2.2.1,
      (unspelled_congr hvm.second).2.2.1, (unspelled_congr hwn.first).2.2.1,
      (unspelled_congr hwn.second).2.2.1]
  obtain ⟨hlower, hupper⟩ := Prod.mk.inj hforward
  cases k
  simp only [Inversion.key, InversionKey.mk.injEq] at hlocations ⊢
  exact ⟨hlower, hupper, hlocations⟩

/-- Inversions with one key come to one report, which says of the key what they show together. -/
theorem inversionReport?_says {group : List Inversion} (hne : group ≠ [])
    (hg : ∀ i, i ∈ group ↔ i ∈ inversions (witnesses (prepare paths)) ∧ i.key = k) :
    ∃ r, inversionReport? group = some r ∧ ReportsConflict paths k r := by
  have hsound : ∀ i ∈ group, Ranked.relate k.lower k.upper ≠ .after ∧
      ∃ p q, Conflicts paths k p q i.forward.nesting i.backward.nesting ∧
        (i.possibility = .probably ↔ MutuallyBlock p q i.forward.nesting i.backward.nesting) := by
    intro i hi
    obtain ⟨hmem, rfl⟩ := (hg i).mp hi
    exact conflicts_of_mem hmem
  obtain ⟨i, rest, rfl⟩ := List.exists_cons_of_ne_nil hne
  obtain ⟨hrelate, p, q, hconflicts, _⟩ := hsound i List.mem_cons_self
  refine ⟨_, rfl, ⟨p, q, _, _, _, _, hconflicts, rfl, shows_diagnosis _ _ _, shows_diagnosis _ _ _, ?_, ?_⟩,
    ?_⟩
  · refine (distinctChains_lists (i :: rest) fun o => o.forward.second.chain).of_occurs ?_ ?_
    · rintro _ ⟨o, ho, rfl⟩
      obtain ⟨_, p, q, hc, _⟩ := hsound o ho
      exact ⟨p, q, _, _, hc, rfl⟩
    · rintro _ ⟨p, q, m, n, hc, rfl⟩
      obtain ⟨o, ho, hkey, hm, _⟩ := hc.exists_mem hrelate
      exact ⟨_, ⟨o, (hg o).mpr ⟨ho, hkey⟩, rfl⟩, congrArg Event.chain hm.second⟩
  · refine (distinctChains_lists (i :: rest) fun o => o.backward.second.chain).of_occurs ?_ ?_
    · rintro _ ⟨o, ho, rfl⟩
      obtain ⟨_, p, q, hc, _⟩ := hsound o ho
      exact ⟨p, q, _, _, hc, rfl⟩
    · rintro _ ⟨p, q, m, n, hc, rfl⟩
      obtain ⟨o, ho, hkey, _, hn, _⟩ := hc.exists_mem hrelate
      exact ⟨_, ⟨o, (hg o).mpr ⟨ho, hkey⟩, rfl⟩, congrArg Event.chain hn.second⟩
  · refine mergedPossibility_iff.trans ?_
    rw [List.mem_map]
    constructor
    · rintro ⟨o, ho, hprob⟩
      obtain ⟨_, p, q, hc, hgrade⟩ := hsound o ho
      exact ⟨p, q, _, _, hc, hgrade.mp hprob⟩
    · rintro ⟨p, q, m, n, hc, hblock⟩
      obtain ⟨o, ho, hkey, _, _, hgrade⟩ := hc.exists_mem hrelate
      exact ⟨o, (hg o).mpr ⟨ho, hkey⟩, hgrade hblock⟩

/-- Between the texts of a conflict, not to stand after is to stand before. -/
theorem Conflicts.relate_iff (h : Conflicts paths k p q m n) (htextual : Textual paths) :
    Ranked.relate k.lower k.upper ≠ .after ↔ compare k.lower k.upper = .lt := by
  have hnested : NestedOn paths p.degraded m :=
    ⟨p, h.forwardPath, rfl, mem_nestings_iff.mpr h.forward.on⟩
  have hplain := hnested.isPlain fun p hp => (htextual p hp).2
  have hkeyed := hnested.isKeyed fun p hp => (htextual p hp).1
  obtain ⟨hlower, hupper⟩ := Prod.mk.inj h.forwardClasses
  rw [hlower, hupper] at hplain hkeyed
  have hne : compare k.lower k.upper ≠ .eq := by
    intro he
    have hsame := AliasClass.eq_of_compare hkeyed.1 hkeyed.2 he
    exact h.forward.differ (by rw [hlower, hupper, hsame])
  rw [AliasClass.relate_eq_ofOrd hplain.1 hplain.2, Relation.ofOrd]
  cases hc : compare k.lower k.upper with
  | lt => simp [Relation.ofOrdering]
  | eq => exact absurd hc hne
  | gt => simp [Relation.ofOrdering]

/-- Whenever detection answers, and it does on all paths whose names are texts, its conflicts of two
classes are those of the paths: each key with a conflict has one report, and no other key has any. Of the
two keys that a conflict has, one for each order of the classes, the one with the smaller class first
counts. Names other than texts may stand neither before nor after each other, and then both keys do. -/
theorem inversions_exact (options : Options) (paths : List LockPath) :
    (Textual paths → ∃ found, detect options paths = .ok found) ∧
    ∀ found, detect options paths = .ok found →
      ∃ keys : List InversionKey,
        (∀ k, k ∈ keys ↔ Ranked.relate k.lower k.upper ≠ .after ∧
          ∃ p q m n, Conflicts paths k p q m n) ∧
        keys.Nodup ∧
        (Textual paths →
          (∀ k, k ∈ keys ↔ compare k.lower k.upper = .lt ∧ ∃ p q m n, Conflicts paths k p q m n) ∧
          (∀ k ∈ keys, ∀ l ∈ keys, (l.lower, l.upper) ≠ (k.upper, k.lower)) ∧
          keys.Pairwise fun k l => compare k l = .lt) ∧
        List.Forall₂ (ReportsConflict paths) keys
          (found.reports.filter fun r => r.kind = "ConflictLock" ∧ r.subject.diagnoses.length = 2) := by
  refine ⟨fun h => h.detect options, ?_⟩
  intro found hfound
  have h := answered hfound
  have happart := inversions_tellApart fun p hp => h.keyed p (mem_prepare hp)
  obtain ⟨groups, hgroups⟩ := Option.isSome_iff_exists.mp h.inversions
  obtain ⟨keys, hkeys, hnodup, hascend, hreports⟩ :=
    (findings?_partitions happart hgroups).reported fun k g => inversionReport?_says (k := k)
  have hmem : ∀ k, k ∈ keys ↔ Ranked.relate k.lower k.upper ≠ .after ∧
      ∃ p q m n, Conflicts paths k p q m n := by
    intro k
    rw [hkeys]
    constructor
    · rintro ⟨i, hi, rfl⟩
      obtain ⟨hrelate, p, q, hc, _⟩ := conflicts_of_mem hi
      exact ⟨hrelate, p, q, _, _, hc⟩
    · rintro ⟨hrelate, p, q, m, n, hc⟩
      obtain ⟨i, hi, hkey, _⟩ := hc.exists_mem hrelate
      exact ⟨i, hi, hkey⟩
  refine ⟨keys, hmem, hnodup, fun htextual => ?_, ?_⟩
  · have hlt : ∀ k, k ∈ keys ↔ compare k.lower k.upper = .lt ∧
        ∃ p q m n, Conflicts paths k p q m n := by
      intro k
      rw [hmem]
      constructor
      · rintro ⟨hrelate, p, q, m, n, hc⟩
        exact ⟨(hc.relate_iff htextual).mp hrelate, p, q, m, n, hc⟩
      · rintro ⟨hlt, p, q, m, n, hc⟩
        exact ⟨(hc.relate_iff htextual).mpr hlt, p, q, m, n, hc⟩
    refine ⟨hlt, ?_, hascend ?_⟩
    · intro k hk l hl hswap
      obtain ⟨hlower, hupper⟩ := Prod.mk.inj hswap
      have hforth := ((hlt k).mp hk).1
      have hback := ((hlt l).mp hl).1
      rw [hlower, hupper, Std.OrientedOrd.eq_swap, hforth] at hback
      cases hback
    · rw [findings?_of_plain (inversions_plain fun p hp => (htextual.prepare p hp).2)] at hgroups
      cases hgroups
      exact groupOn_ascending _ _
  · rw [h.reports, filter_inversions, inversionReports, findings, hgroups]
    exact hreports

/-- Two static locks that are taken in both orders are reported as probable. -/
theorem inversions_exact_acquiring :
    Textual [acquiring "A" "B" 1, acquiring "B" "A" 3] ∧
    ∃ found, detect {} [acquiring "A" "B" 1, acquiring "B" "A" 3] = .ok found ∧
      ∃ r ∈ found.reports, r.kind = "ConflictLock" ∧ r.subject.diagnoses.length = 2 ∧
        r.possibility = .probably := by
  have htextual : Textual [acquiring "A" "B" 1, acquiring "B" "A" 3] := by
    intro p hp
    rcases List.mem_pair.mp hp with rfl | rfl <;> decide
  refine ⟨htextual, ?_⟩
  obtain ⟨hanswers, hexact⟩ := inversions_exact {} [acquiring "A" "B" 1, acquiring "B" "A" 3]
  obtain ⟨found, hfound⟩ := hanswers htextual
  obtain ⟨keys, _, _, hordered, hreports⟩ := hexact found hfound
  let k : InversionKey := ⟨.static (.str "A"), .static (.str "B"), [⟨"main.rs", 1, 1⟩, ⟨"main.rs", 2, 1⟩,
    ⟨"main.rs", 3, 1⟩, ⟨"main.rs", 4, 1⟩]⟩
  have hconflicts : Conflicts [acquiring "A" "B" 1, acquiring "B" "A" 3] k (acquiring "A" "B" 1)
      (acquiring "B" "A" 3) (acquisitions "A" "B" 1) (acquisitions "B" "A" 3) :=
    ⟨by simp, by simp, by decide, isWitness_acquisitions (by decide) 1,
      isWitness_acquisitions (by decide) 3, by decide, by decide, by decide⟩
  have hlt : compare k.lower k.upper = .lt := by decide +kernel
  have hk : k ∈ keys := ((hordered htextual).1 k).mpr ⟨hlt, _, _, _, _, hconflicts⟩
  obtain ⟨r, hr, hsays⟩ := exists_of_forall₂ hreports hk
  obtain ⟨hmem, hkind⟩ := List.mem_filter.mp hr
  obtain ⟨hkind, hlength⟩ := of_decide_eq_true hkind
  refine ⟨found, hfound, r, hmem, hkind, hlength, hsays.graded.mpr ⟨_, _, _, _, hconflicts, ?_⟩⟩
  exact ⟨⟨_, rfl⟩, ⟨_, rfl⟩, rfl, rfl, by decide, by decide⟩

end Detection

end LockAudit
