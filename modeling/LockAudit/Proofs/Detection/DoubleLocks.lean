import LockAudit.Proofs.Detection.Answer

/-! # Double locks are found exactly

Detection reports a double lock where, and only where, a path acquires a lock of some class while it holds
one of the same class. Each pair of locations and class has one report, which merges the grades and the
call chains of all occurrences.
-/

namespace LockAudit.Detection

/-- On the path, a lock is acquired at the second location of the key while one of the same class is held
that was acquired at the first. -/
structure Relocks (paths : List LockPath) (k : DoubleLockKey) (p : LockPath) (n : Nesting) : Prop where
  path : p ∈ paths
  on : n.On p
  first : n.first.event.location = k.first
  second : n.second.event.location = k.second
  firstClass : n.firstClass = k.lockClass
  secondClass : n.secondClass = k.lockClass

/-- The report says of the key what its occurrences come to. -/
structure ReportsDoubleLock (paths : List LockPath) (k : DoubleLockKey) (r : Report) : Prop where
  shown : ∃ p n d, Relocks paths k p n ∧ r.subject = .doubleLock d ∧
    Shows d n.first.event n.second.event ∧
    ListsChains d.chains fun c => ∃ p n, Relocks paths k p n ∧ n.second.event.chain = c
  graded : r.possibility = .probably ↔
    ∃ p n, Relocks paths k p n ∧ p.degraded = false ∧ n.SurelyBlocks

theorem doubleLockPossibility_iff {first second : GuardKind} {tier : AliasTier} {degraded : Bool} :
    doubleLockPossibility first second tier degraded = .probably ↔
      tier = .exact ∧ degraded = false ∧ first.isReentrant = false ∧ second.isReentrant = false ∧
        (first.isShared && second.isShared) = false := by
  constructor
  · exact doubleLockPossibility_eq_probably
  · rintro ⟨rfl, rfl, hf, hs, hu⟩
    simp [doubleLockPossibility, hf, hs, hu]

theorem exists_tier {first second : Lock} (h : first.aliasClass = second.aliasClass) (same : Bool) :
    ∃ tier, first.tier? second same = some tier := by
  unfold Lock.tier?
  rw [if_neg (not_not.mpr h)]
  split
  · exact ⟨_, rfl⟩
  · exact ⟨_, rfl⟩
  · split <;> exact ⟨_, rfl⟩

theorem ofNesting?_possibility {degraded : Bool} {n : Nesting} {d : DoubleLock}
    (h : DoubleLock.ofNesting? degraded n = some d) :
    d.possibility = .probably ↔ degraded = false ∧ n.SurelyBlocks := by
  obtain ⟨tier, ht, rfl⟩ := Option.map_eq_some_iff.mp h
  rw [doubleLockPossibility_iff]
  constructor
  · rintro ⟨rfl, hd, hf, hs, hu⟩
    exact ⟨hd, ht, hf, hs, hu⟩
  · rintro ⟨hd, hexact, hf, hs, hu⟩
    rw [ht] at hexact
    exact ⟨Option.some.inj hexact, hd, hf, hs, hu⟩

theorem mem_doubleLocks {paths : List LockPath} {d : DoubleLock} :
    d ∈ doubleLocks paths ↔
      ∃ p ∈ paths, ∃ n : Nesting, n.On p ∧ DoubleLock.ofNesting? p.degraded n = some d := by
  simp only [doubleLocks, List.mem_flatMap, List.mem_filterMap, mem_nestings_iff]

/-- A double lock that detection gathers is one on the paths as they are given. -/
theorem relocks_of_mem {paths : List LockPath} {d : DoubleLock} (h : d ∈ doubleLocks (prepare paths)) :
    ∃ p n, Relocks paths d.key p n ∧ d.first = n.first.event ∧ d.second = n.second.event ∧
      (d.possibility = .probably ↔ p.degraded = false ∧ n.SurelyBlocks) := by
  obtain ⟨p, hp, n, hn, hd⟩ := mem_doubleLocks.mp h
  have hgrade := ofNesting?_possibility hd
  obtain ⟨tier, ht, rfl⟩ := Option.map_eq_some_iff.mp hd
  have hclass : n.firstClass = n.secondClass := tier?_eq_some ht
  exact ⟨p, n, ⟨mem_prepare hp, hn, rfl, rfl, rfl, hclass.symm⟩, rfl, rfl, hgrade⟩

/-- A double lock on the paths as they are given is gathered, perhaps from a path that is spelled
differently. -/
theorem Relocks.exists_mem {paths : List LockPath} {k : DoubleLockKey} {p : LockPath} {n : Nesting}
    (h : Relocks paths k p n) :
    ∃ d ∈ doubleLocks (prepare paths), d.key = k ∧
      d.second.chain.map Json.canonical = n.second.event.chain.map Json.canonical ∧
      (p.degraded = false → n.SurelyBlocks → d.possibility = .probably) := by
  obtain ⟨q, hq, hqp⟩ := exists_prepared h.path
  obtain ⟨m, hm, hmn⟩ := h.on.exists_alike hqp
  have hfirst : m.firstClass = k.lockClass := hmn.firstClass.trans h.firstClass
  have hsecond : m.secondClass = k.lockClass := hmn.secondClass.trans h.secondClass
  obtain ⟨tier, ht⟩ := exists_tier (hfirst.trans hsecond.symm) m.sameActivation
  have hd : DoubleLock.ofNesting? q.degraded m = some _ := congrArg (Option.map _) ht
  refine ⟨_, mem_doubleLocks.mpr ⟨q, hq, m, hm, hd⟩, ?_, congrArg Event.chain hmn.second, ?_⟩
  · obtain ⟨_, _, hlocation, _⟩ := unspelled_congr hmn.first
    obtain ⟨_, _, hlocation', _⟩ := unspelled_congr hmn.second
    simp only [DoubleLock.key, hlocation, hlocation', h.first, h.second]
    exact congrArg (DoubleLockKey.mk k.first k.second) hfirst
  · intro hdegraded hblocks
    exact (ofNesting?_possibility hd).mpr
      ⟨(degraded_congr hqp).trans hdegraded, hmn.surelyBlocks hblocks⟩

/-- Occurrences with one key come to one report, which says of the key what they show together. -/
theorem doubleLockReport?_says {paths : List LockPath} {k : DoubleLockKey} {group : List DoubleLock}
    (hne : group ≠ []) (hg : ∀ d, d ∈ group ↔ d ∈ doubleLocks (prepare paths) ∧ d.key = k) :
    ∃ r, doubleLockReport? group = some r ∧ ReportsDoubleLock paths k r := by
  have hsound : ∀ d ∈ group, ∃ p n, Relocks paths k p n ∧ d.first = n.first.event ∧
      d.second = n.second.event ∧ (d.possibility = .probably ↔ p.degraded = false ∧ n.SurelyBlocks) := by
    intro d hd
    obtain ⟨hmem, rfl⟩ := (hg d).mp hd
    exact relocks_of_mem hmem
  obtain ⟨d, rest, rfl⟩ := List.exists_cons_of_ne_nil hne
  obtain ⟨p, n, hn, hfirst, hsecond, _⟩ := hsound d List.mem_cons_self
  refine ⟨_, rfl, ⟨p, n, _, hn, rfl, hfirst ▸ hsecond ▸ shows_diagnosis _ _ _, ?_⟩, ?_⟩
  · refine (distinctChains_lists (d :: rest) fun o => o.second.chain).of_occurs ?_ ?_
    · rintro _ ⟨o, ho, rfl⟩
      obtain ⟨p, n, hn, _, hsecond, _⟩ := hsound o ho
      exact ⟨p, n, hn, by rw [hsecond]⟩
    · rintro _ ⟨p, n, hn, rfl⟩
      obtain ⟨o, ho, hkey, hchain, _⟩ := hn.exists_mem
      exact ⟨_, ⟨o, (hg o).mpr ⟨ho, hkey⟩, rfl⟩, hchain⟩
  · refine mergedPossibility_iff.trans ?_
    rw [List.mem_map]
    constructor
    · rintro ⟨o, ho, hprob⟩
      obtain ⟨p, n, hn, _, _, hgrade⟩ := hsound o ho
      exact ⟨p, n, hn, hgrade.mp hprob⟩
    · rintro ⟨p, n, hn, hdegraded, hblocks⟩
      obtain ⟨o, ho, hkey, _, hgrade⟩ := hn.exists_mem
      exact ⟨o, (hg o).mpr ⟨ho, hkey⟩, hgrade hdegraded hblocks⟩

/-- Whenever detection answers, and it does on all paths whose names are texts, its double locks are those
of the paths: each key with an occurrence has one report, and no other key has any. -/
theorem doubleLocks_exact (options : Options) (paths : List LockPath) :
    (Textual paths → ∃ found, detect options paths = .ok found) ∧
    ∀ found, detect options paths = .ok found →
      ∃ keys : List DoubleLockKey,
        (∀ k, k ∈ keys ↔ ∃ p n, Relocks paths k p n) ∧ keys.Nodup ∧
        (Textual paths → keys.Pairwise fun k l => compare k l = .lt) ∧
        List.Forall₂ (ReportsDoubleLock paths) keys
          (found.reports.filter fun r => r.kind = "DoubleLock") := by
  refine ⟨fun h => h.detect options, ?_⟩
  intro found hfound
  have h := answered hfound
  have happart := doubleLocks_tellApart fun p hp => h.keyed p (mem_prepare hp)
  obtain ⟨groups, hgroups⟩ := Option.isSome_iff_exists.mp h.doubleLocks
  obtain ⟨keys, hkeys, hnodup, hascend, hreports⟩ :=
    (findings?_partitions happart hgroups).reported fun k g => doubleLockReport?_says (k := k)
  refine ⟨keys, ?_, hnodup, ?_, ?_⟩
  · intro k
    rw [hkeys]
    constructor
    · rintro ⟨d, hd, rfl⟩
      obtain ⟨p, n, hn, _⟩ := relocks_of_mem hd
      exact ⟨p, n, hn⟩
    · rintro ⟨p, n, hn⟩
      obtain ⟨d, hd, hkey, _⟩ := hn.exists_mem
      exact ⟨d, hd, hkey⟩
  · intro htextual
    refine hascend ?_
    rw [findings?_of_plain (doubleLocks_plain fun p hp => (htextual.prepare p hp).2)] at hgroups
    cases hgroups
    exact groupOn_ascending _ _
  · rw [h.reports, filter_doubleLocks, doubleLockReports, findings, hgroups]
    exact hreports

/-- One lock is acquired three times. Of the releases in between only the last ends a holding, that of the
first acquisition; the others name none, a position that does not exist, and the release itself. -/
def reacquisition : LockPath :=
  let event (op : LockOp) (line : Int) (acquired : Option Int) : Event :=
    { op, kind := .mutex, lock := { site := .static, name := .str "A" }, location := ⟨"main.rs", line, 1⟩,
      inst := .str "main", guard := .str "g", chain := [.str "main"], acquired, frame := 0 }
  { root := .str "main"
    events := [event .acquire 1 none, event .release 2 none, event .release 3 (some (-1)),
      event .release 4 (some 3), event .acquire 5 none, event .release 6 (some 0),
      event .acquire 7 none] }

/-- The release in between keeps the first acquisition from being a double lock with the last. -/
theorem doubleLocks_exact_reacquisition :
    ∃ found, detect {} [reacquisition] = .ok found ∧
      (∃ r ∈ found.reports, r.kind = "DoubleLock" ∧ r.possibility = .probably) ∧
      ∀ p n, ¬ Relocks [reacquisition] ⟨⟨"main.rs", 1, 1⟩, ⟨"main.rs", 7, 1⟩, .static (.str "A")⟩ p n := by
  have htextual : Textual [reacquisition] := by
    intro p hp
    obtain rfl := List.mem_singleton.mp hp
    decide
  obtain ⟨hanswers, hexact⟩ := doubleLocks_exact {} [reacquisition]
  obtain ⟨found, hfound⟩ := hanswers htextual
  obtain ⟨keys, hkeys, _, _, hreports⟩ := hexact found hfound
  refine ⟨found, hfound, ?_, ?_⟩
  · let n : Nesting := ⟨⟨0, reacquisition.events[0]⟩, ⟨4, reacquisition.events[4]⟩⟩
    have hn : Relocks [reacquisition] ⟨⟨"main.rs", 1, 1⟩, ⟨"main.rs", 5, 1⟩, .static (.str "A")⟩
        reacquisition n := by
      refine ⟨List.mem_singleton.mpr rfl, ⟨by decide, rfl, rfl, rfl, rfl, ?_⟩, rfl, rfl, ?_, ?_⟩
      · intro i e hi hj he _
        have hbetween : i = 1 ∨ i = 2 ∨ i = 3 := by
          change 0 < i at hi
          change i < 4 at hj
          omega
        rcases hbetween with rfl | rfl | rfl <;> cases he <;> decide
      · decide
      · decide
    obtain ⟨r, hr, hsays⟩ := exists_of_forall₂ hreports ((hkeys _).mpr ⟨_, n, hn⟩)
    obtain ⟨hmem, hkind⟩ := List.mem_filter.mp hr
    refine ⟨r, hmem, of_decide_eq_true hkind, hsays.graded.mpr ⟨_, n, hn, rfl, ?_⟩⟩
    exact ⟨by decide, rfl, rfl, rfl⟩
  · intro p n hn
    obtain rfl := List.mem_singleton.mp hn.path
    have hnone : ∀ m ∈ nestings reacquisition, m.first.event.location = ⟨"main.rs", 1, 1⟩ →
        m.second.event.location ≠ ⟨"main.rs", 7, 1⟩ := by
      decide +kernel
    exact hnone n (mem_nestings_iff.mpr hn.on) hn.first hn.second

end LockAudit.Detection
