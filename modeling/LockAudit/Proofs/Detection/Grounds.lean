import LockAudit.Proofs.Detection.Replay
import LockAudit.Proofs.Detection.Spread

/-! # The grounds of a report

Every diagnosis of a report shows two acquisitions that some path nests, and each call chain that it
lists is the chain of such a nesting at the same locations and on the same classes. A probable double
lock has a nesting of surely one lock on a path that was fully tracked.
-/

namespace LockAudit.Detection

def NestedOn (paths : List LockPath) (degraded : Bool) (n : Nesting) : Prop :=
  ∃ p ∈ paths, p.degraded = degraded ∧ n ∈ nestings p

structure Nesting.SamePlace (m n : Nesting) : Prop where
  first : m.first.event.location = n.first.event.location
  second : m.second.event.location = n.second.event.location
  firstClass : m.firstClass = n.firstClass
  secondClass : m.secondClass = n.secondClass

theorem Nesting.SamePlace.refl (n : Nesting) : n.SamePlace n :=
  ⟨rfl, rfl, rfl, rfl⟩

/-- The second acquisition of a nesting surely waits for the first. -/
structure Nesting.SurelyBlocks (n : Nesting) : Prop where
  exact : n.first.event.lock.tier? n.second.event.lock n.sameActivation = some .exact
  first : n.first.event.kind.isReentrant = false
  second : n.second.event.kind.isReentrant = false
  unshared : (n.first.event.kind.isShared && n.second.event.kind.isShared) = false

/-- The diagnosis has the texts of two acquisitions: for each the lock, the kind of the guard with the type
of the lock, if it has one, and the location. -/
structure Shows (d : Diagnosis) (first second : Event) : Prop where
  firstLock : d.firstLock = first.lock.describe
  firstLockType : d.firstLockType = .str (if first.lock.lockType.truthy
    then first.kind.name ++ ": " ++ first.lock.lockType.display else first.kind.name)
  firstLockSpan : d.firstLockSpan = .str first.location.render
  secondLock : d.secondLock = second.lock.describe
  secondLockType : d.secondLockType = .str (if second.lock.lockType.truthy
    then second.kind.name ++ ": " ++ second.lock.lockType.display else second.kind.name)
  secondLockSpan : d.secondLockSpan = .str second.location.render

theorem shows_diagnosis (first second : Event) (chains : List (List Name)) :
    Shows (diagnosis first second chains) first second :=
  ⟨rfl, rfl, rfl, rfl, rfl, rfl⟩

/-- A diagnosis shows a nesting on the paths, and its chains are those of nestings at the same place. -/
structure Grounded (paths : List LockPath) (d : Diagnosis) (n : Nesting) : Prop where
  nested : ∃ degraded, NestedOn paths degraded n
  shows : Shows d n.first.event n.second.event
  chains : ∀ chain ∈ d.chains, ∃ degraded m, NestedOn paths degraded m ∧ m.SamePlace n ∧
    m.second.event.chain = chain

theorem mem_prepare {paths : List LockPath} {p : LockPath} (h : p ∈ prepare paths) : p ∈ paths :=
  (distinctOn_sublist LockPath.canonical paths).subset (LockPath.mem_sorted.mp h)

theorem NestedOn.isKeyed {paths : List LockPath} {degraded : Bool} {n : Nesting}
    (h : NestedOn paths degraded n) (hk : ∀ p ∈ paths, p.isKeyed = true) :
    n.firstClass.IsKeyed ∧ n.secondClass.IsKeyed := by
  obtain ⟨p, hp, _, hn⟩ := h
  have he : ∀ e ∈ p.events, e.isKeyed = true := by
    have hkp := hk p hp
    simp only [LockPath.isKeyed, Bool.and_eq_true, List.all_eq_true] at hkp
    exact hkp.2
  obtain ⟨hs, _, hf⟩ := (mem_nestings p n).mp hn
  have hfe := ((mem_replay _ _).mp hf).1
  have hfirst := he _ (List.mem_of_mem_take (List.mem_of_getElem? hfe))
  have hsecond := he _ (List.mem_of_getElem? hs)
  exact ⟨Event.isKeyed_aliasClass hfirst, Event.isKeyed_aliasClass hsecond⟩

/-- The occurrences of a finding ground what is shown of one of them, if they all nest at its place. -/
theorem grounded_of_occurrences {α : Type} {paths : List LockPath} {n : Nesting} {os : List α}
    {chain : α → List Name} (hn : ∃ degraded, NestedOn paths degraded n)
    (h : ∀ o ∈ os, ∃ degraded m, NestedOn paths degraded m ∧ m.SamePlace n ∧
      m.second.event.chain = chain o) :
    Grounded paths (diagnosis n.first.event n.second.event (distinctChains (os.map chain))) n := by
  refine ⟨hn, shows_diagnosis _ _ _, ?_⟩
  intro c hc
  obtain ⟨o, ho, rfl⟩ := List.mem_map.mp (mem_distinctChains hc)
  exact h o ho

/-! ### Double locks -/

theorem tier?_eq_some {first second : Lock} {same : Bool} {tier : AliasTier}
    (h : first.tier? second same = some tier) : first.aliasClass = second.aliasClass := by
  unfold Lock.tier? at h
  split at h
  · cases h
  · rename_i hc
    exact Decidable.not_not.mp hc

theorem doubleLockPossibility_eq_probably {first second : GuardKind} {tier : AliasTier} {degraded : Bool}
    (h : doubleLockPossibility first second tier degraded = .probably) :
    tier = .exact ∧ degraded = false ∧ first.isReentrant = false ∧ second.isReentrant = false ∧
      (first.isShared && second.isShared) = false := by
  unfold doubleLockPossibility at h
  split at h
  · cases h
  · rename_i ht
    split at h
    · cases h
    · rename_i hr
      split at h
      · cases h
      · rename_i hs
        simp only [Bool.or_eq_true, decide_eq_true_eq, not_or, Decidable.not_not,
          Bool.not_eq_true] at ht hr hs
        exact ⟨ht.1, ht.2, hr.1, hr.2, hs⟩

structure DoubleLock.OfNesting (paths : List LockPath) (d : DoubleLock) (n : Nesting) : Prop where
  nested : ∃ degraded, NestedOn paths degraded n
  first : d.first = n.first.event
  second : d.second = n.second.event
  sameClass : n.firstClass = n.secondClass
  probable : d.possibility = .probably → NestedOn paths false n ∧ n.SurelyBlocks

theorem doubleLocks_nested {paths : List LockPath} {d : DoubleLock} (h : d ∈ doubleLocks paths) :
    ∃ n, d.OfNesting paths n := by
  obtain ⟨p, hp, h⟩ := List.mem_flatMap.mp h
  obtain ⟨n, hn, h⟩ := List.mem_filterMap.mp h
  obtain ⟨tier, ht, rfl⟩ := Option.map_eq_some_iff.mp h
  refine ⟨n, ⟨p.degraded, p, hp, rfl, hn⟩, rfl, rfl, tier?_eq_some ht, ?_⟩
  intro hprob
  obtain ⟨rfl, hd, hf, hs, hu⟩ := doubleLockPossibility_eq_probably hprob
  exact ⟨⟨p, hp, hd, hn⟩, ht, hf, hs, hu⟩

theorem doubleLocks_tellApart {paths : List LockPath} (hk : ∀ p ∈ paths, p.isKeyed = true) :
    TellsApart DoubleLock.key (doubleLocks paths) := by
  have hclass : ∀ d ∈ doubleLocks paths, d.key.lockClass.IsKeyed := by
    intro d hd
    obtain ⟨n, hn⟩ := doubleLocks_nested hd
    obtain ⟨degraded, hp⟩ := hn.nested
    have hc := (hp.isKeyed hk).1
    rwa [Nesting.firstClass, ← hn.first] at hc
  intro a ha b hb h
  exact DoubleLockKey.eq_of_compare (hclass a ha) (hclass b hb) h

theorem DoubleLock.OfNesting.samePlace {paths : List LockPath} {c d : DoubleLock} {m n : Nesting}
    (hc : c.OfNesting paths m) (hd : d.OfNesting paths n) (h : c.key = d.key) : m.SamePlace n := by
  have hfirst := congrArg DoubleLockKey.first h
  have hsecond := congrArg DoubleLockKey.second h
  have hclass := congrArg DoubleLockKey.lockClass h
  simp only [DoubleLock.key, hc.first, hd.first, hc.second, hd.second] at hfirst hsecond hclass
  refine ⟨hfirst, hsecond, hclass, ?_⟩
  rw [← hc.sameClass, ← hd.sameClass]
  exact hclass

/-- Every double lock that is reported is shown by a nesting on one of the paths. -/
theorem doubleLockReports_grounded {paths : List LockPath} (hk : ∀ p ∈ paths, p.isKeyed = true)
    {r : Report} (h : r ∈ doubleLockReports paths) :
    ∃ d n, r.subject = .doubleLock d ∧ Grounded paths d n ∧ n.firstClass = n.secondClass ∧
      (r.possibility = .probably → ∃ m, NestedOn paths false m ∧ m.SamePlace n ∧ m.SurelyBlocks) := by
  obtain ⟨group, hg, hr⟩ := List.mem_filterMap.mp h
  obtain ⟨hmem, hkeys⟩ := findings_gathered (doubleLocks_tellApart hk) hg
  cases group with
  | nil => cases hr
  | cons d rest =>
    cases hr
    obtain ⟨n, hn⟩ := doubleLocks_nested (hmem d List.mem_cons_self)
    -- Any occurrence of the finding is a nesting at the place of the one that is shown.
    have hall : ∀ o ∈ d :: rest, ∃ m, o.OfNesting paths m ∧ m.SamePlace n := by
      intro o ho
      obtain ⟨m, hm⟩ := doubleLocks_nested (hmem o ho)
      exact ⟨m, hm, hm.samePlace hn (hkeys o ho d List.mem_cons_self)⟩
    refine ⟨_, n, rfl, ?_, hn.sameClass, ?_⟩
    · rw [hn.first, hn.second]
      refine grounded_of_occurrences hn.nested ?_
      intro o ho
      obtain ⟨m, hm, hp⟩ := hall o ho
      obtain ⟨degraded, hd⟩ := hm.nested
      exact ⟨degraded, m, hd, hp, by rw [hm.second]⟩
    · intro hprob
      obtain ⟨o, ho, hop⟩ := List.mem_map.mp (mergedPossibility_eq_probably hprob)
      obtain ⟨m, hm, hp⟩ := hall o ho
      obtain ⟨hd, hs⟩ := hm.probable hop
      exact ⟨m, hd, hp, hs⟩

/-! ### Inversions and cycles -/

theorem witnesses_nested {paths : List LockPath} {w : Witness} (h : w ∈ witnesses paths) :
    NestedOn paths w.degraded w.nesting := by
  obtain ⟨⟨p, i⟩, hp, hw⟩ := List.mem_flatMap.mp h
  obtain ⟨n, hn, rfl⟩ := List.mem_map.mp hw
  have hm := List.mem_of_mem_filter ((distinctOn_sublist _ _).subset hn)
  exact ⟨p, List.fst_mem_of_mem_zipIdx hp, rfl, hm⟩

theorem mem_inversions {ws : List Witness} {i : Inversion} :
    i ∈ inversions ws ↔ i.forward ∈ ws ∧ i.backward ∈ ws ∧
      i.backward.edge = (i.forward.edge.2, i.forward.edge.1) ∧
      Ranked.relate i.forward.edge.1 i.forward.edge.2 ≠ .after ∧ i.forward.path ≠ i.backward.path := by
  simp only [inversions, invertedEdges, inversionsOf, withKey_witnessIndex, orderEdges,
    FingerprintSet.contains_ofList, List.mem_flatMap, List.mem_filter, List.mem_map, mem_distinct,
    Bool.and_eq_true, bne_iff_ne, decide_eq_true_eq]
  constructor
  · rintro ⟨⟨a, b⟩, ⟨_, hrelate, _⟩, p, ⟨hp, hpe⟩, q, ⟨⟨hq, hqe⟩, hpath⟩, rfl⟩
    refine ⟨hp, hq, ?_, ?_, hpath⟩
    · rw [hqe, hpe]
    · rw [hpe]
      exact hrelate
  · rintro ⟨hf, hb, hedge, hrelate, hpath⟩
    exact ⟨i.forward.edge, ⟨⟨_, hf, rfl⟩, hrelate, _, hb, hedge⟩, i.forward, ⟨hf, rfl⟩, i.backward,
      ⟨⟨hb, hedge⟩, hpath⟩, rfl⟩

theorem inversions_tellApart {paths : List LockPath} (hk : ∀ p ∈ paths, p.isKeyed = true) :
    TellsApart Inversion.key (inversions (witnesses paths)) := by
  have hclass : ∀ i ∈ inversions (witnesses paths), i.key.lower.IsKeyed ∧ i.key.upper.IsKeyed :=
    fun i hi => (witnesses_nested (mem_inversions.mp hi).1).isKeyed hk
  intro a ha b hb h
  exact InversionKey.eq_of_compare (hclass a ha) (hclass b hb) h

theorem inversions_samePlace {ws : List Witness} {i j : Inversion} (hi : i ∈ inversions ws)
    (hj : j ∈ inversions ws) (h : i.key = j.key) :
    i.forward.nesting.SamePlace j.forward.nesting ∧
      i.backward.nesting.SamePlace j.backward.nesting := by
  have hlower : i.forward.nesting.firstClass = j.forward.nesting.firstClass :=
    congrArg InversionKey.lower h
  have hupper : i.forward.nesting.secondClass = j.forward.nesting.secondClass :=
    congrArg InversionKey.upper h
  have hplaces := congrArg InversionKey.locations h
  simp only [Inversion.key, List.cons.injEq, and_true] at hplaces
  obtain ⟨h1, h2, h3, h4⟩ := hplaces
  obtain ⟨hi1, hi2⟩ := Prod.mk.inj (mem_inversions.mp hi).2.2.1
  obtain ⟨hj1, hj2⟩ := Prod.mk.inj (mem_inversions.mp hj).2.2.1
  refine ⟨⟨h1, h2, hlower, hupper⟩, h3, h4, ?_, ?_⟩
  · exact hi1.trans (hupper.trans hj1.symm)
  · exact hi2.trans (hlower.trans hj2.symm)

/-- Both sides of every inversion that is reported are shown by nestings on the paths. -/
theorem inversionReports_grounded {paths : List LockPath} (hk : ∀ p ∈ paths, p.isKeyed = true)
    {r : Report} (h : r ∈ inversionReports (witnesses paths)) :
    ∃ ds, r.subject = .conflictLock ds ∧ ∀ d ∈ ds, ∃ n, Grounded paths d n := by
  obtain ⟨group, hg, hr⟩ := List.mem_filterMap.mp h
  obtain ⟨hmem, hkeys⟩ := findings_gathered (inversions_tellApart hk) hg
  cases group with
  | nil => cases hr
  | cons i rest =>
    cases hr
    have hall : ∀ o ∈ i :: rest, o.forward ∈ witnesses paths ∧ o.backward ∈ witnesses paths ∧
        o.forward.nesting.SamePlace i.forward.nesting ∧
          o.backward.nesting.SamePlace i.backward.nesting := by
      intro o ho
      obtain ⟨hf, hb, _⟩ := mem_inversions.mp (hmem o ho)
      exact ⟨hf, hb, inversions_samePlace (hmem o ho) (hmem i List.mem_cons_self)
        (hkeys o ho i List.mem_cons_self)⟩
    obtain ⟨hf, hb, _⟩ := hall i List.mem_cons_self
    refine ⟨_, rfl, ?_⟩
    intro d hd
    rcases List.mem_pair.mp hd with rfl | rfl
    · refine ⟨i.forward.nesting, grounded_of_occurrences ⟨_, witnesses_nested hf⟩ ?_⟩
      intro o ho
      obtain ⟨hof, _, hp, _⟩ := hall o ho
      exact ⟨_, o.forward.nesting, witnesses_nested hof, hp, rfl⟩
    · refine ⟨i.backward.nesting, grounded_of_occurrences ⟨_, witnesses_nested hb⟩ ?_⟩
      intro o ho
      obtain ⟨_, hob, _, hp⟩ := hall o ho
      exact ⟨_, o.backward.nesting, witnesses_nested hob, hp, rfl⟩

theorem cycleReport_grounded {paths : List LockPath} {chosen : List Witness}
    (h : ∀ w ∈ chosen, w ∈ witnesses paths) :
    ∃ ds, (cycleReport chosen).subject = .conflictLock ds ∧ ∀ d ∈ ds, ∃ n, Grounded paths d n := by
  refine ⟨_, rfl, ?_⟩
  intro d hd
  obtain ⟨w, hw, rfl⟩ := List.mem_map.mp hd
  have hn := witnesses_nested (h w hw)
  refine ⟨w.nesting, ⟨_, hn⟩, shows_diagnosis _ _ _, ?_⟩
  intro chain hc
  obtain rfl := List.mem_singleton.mp hc
  exact ⟨_, w.nesting, hn, .refl _, rfl⟩

/-! ### All reports -/

theorem NestedOn.of_prepare {paths : List LockPath} {degraded : Bool} {n : Nesting}
    (h : NestedOn (prepare paths) degraded n) : NestedOn paths degraded n := by
  obtain ⟨p, hp, hd, hn⟩ := h
  exact ⟨p, mem_prepare hp, hd, hn⟩

theorem Grounded.of_prepare {paths : List LockPath} {d : Diagnosis} {n : Nesting}
    (h : Grounded (prepare paths) d n) : Grounded paths d n := by
  obtain ⟨degraded, hn⟩ := h.nested
  refine ⟨⟨degraded, hn.of_prepare⟩, h.shows, ?_⟩
  intro chain hc
  obtain ⟨degraded, m, hm, hp, he⟩ := h.chains chain hc
  exact ⟨degraded, m, hm.of_prepare, hp, he⟩

/-- Every diagnosis has its grounds on the paths, and so has the grade of a probable double lock. -/
theorem reports_grounded {options : Options} {paths : List LockPath}
    (hk : ∀ p ∈ paths, p.isKeyed = true) {r : Report} (h : r ∈ reports options paths) {d : Diagnosis}
    (hd : d ∈ r.subject.diagnoses) :
    ∃ n, Grounded paths d n ∧ (r.subject = .doubleLock d → n.firstClass = n.secondClass ∧
      (r.possibility = .probably →
        ∃ m, NestedOn paths false m ∧ m.SamePlace n ∧ m.SurelyBlocks)) := by
  have hkp : ∀ p ∈ prepare paths, p.isKeyed = true := fun p hp => hk p (mem_prepare hp)
  have conflict : (∃ ds, r.subject = .conflictLock ds ∧ ∀ d ∈ ds, ∃ n, Grounded (prepare paths) d n) →
      ∃ n, Grounded paths d n ∧ (r.subject = .doubleLock d → n.firstClass = n.secondClass ∧
        (r.possibility = .probably →
          ∃ m, NestedOn paths false m ∧ m.SamePlace n ∧ m.SurelyBlocks)) := by
    rintro ⟨ds, hs, hall⟩
    rw [hs] at hd
    obtain ⟨n, hn⟩ := hall d hd
    exact ⟨n, hn.of_prepare, by simp [hs]⟩
  simp only [reports, Evidence.reports, evidence, List.mem_append] at h
  rcases h with (h | h) | h
  · obtain ⟨d', n, hs, hg, hc, hp⟩ := doubleLockReports_grounded hkp h
    rw [hs] at hd ⊢
    obtain rfl := List.mem_singleton.mp hd
    refine ⟨n, hg.of_prepare, fun _ => ⟨hc, ?_⟩⟩
    intro hprob
    obtain ⟨m, hm, hrest⟩ := hp hprob
    exact ⟨m, hm.of_prepare, hrest⟩
  · exact conflict (inversionReports_grounded hkp h)
  · obtain ⟨c, hc, rfl⟩ := List.mem_map.mp h
    refine conflict (cycleReport_grounded ?_)
    intro w hw
    split at hc
    · obtain ⟨_, _, hmem, _⟩ := exists_of_forall₂ (spreadCycles_chosen hc).1 hw
      exact hmem
    · cases hc

end LockAudit.Detection
