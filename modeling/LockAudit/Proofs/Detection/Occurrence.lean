import LockAudit.Proofs.Detection.Grounds

/-! # Nestings on the paths as they are given

A nesting is told by the events of a path alone: two acquisitions without a release between them that
names the first. Detection drops a path that is spelled differently and otherwise equal to another one;
such paths have the same nestings, so it makes no difference which of them is kept.
-/

namespace LockAudit

/-- A value is kept if its key is not in the set and no value before it has the same key. -/
theorem FingerprintSet.mem_freshOn {α β : Type} [DecidableEq α] [Fingerprint α] (key : β → α)
    (s : FingerprintSet α) (ys : List β) (x : β) :
    x ∈ s.freshOn key ys ↔ ∃ before after, ys = before ++ x :: after ∧
      s.contains (key x) = false ∧ ∀ y ∈ before, key y ≠ key x := by
  induction ys generalizing s with
  | nil => simp [freshOn]
  | cons y ys ih =>
    constructor
    · intro hx
      unfold freshOn at hx
      split at hx
      · rename_i hy
        obtain ⟨before, after, rfl, hs, hb⟩ := (ih s).mp hx
        refine ⟨y :: before, after, rfl, hs, List.forall_mem_cons.mpr ⟨?_, hb⟩⟩
        intro he
        simp [he, hs] at hy
      · rename_i hy
        rcases List.mem_cons.mp hx with rfl | hx
        · exact ⟨[], ys, rfl, Bool.eq_false_iff.mpr hy, by simp⟩
        · obtain ⟨before, after, rfl, hs, hb⟩ := (ih _).mp hx
          rw [contains_insert, Bool.or_eq_false_iff, decide_eq_false_iff_not] at hs
          exact ⟨y :: before, after, rfl, hs.2, List.forall_mem_cons.mpr ⟨fun he => hs.1 he.symm, hb⟩⟩
    · rintro ⟨before, after, he, hs, hb⟩
      cases before with
      | nil =>
        cases he
        simp [freshOn, hs]
      | cons z before =>
        cases he
        obtain ⟨hne, hb⟩ := List.forall_mem_cons.mp hb
        unfold freshOn
        split
        · exact (ih s).mpr ⟨before, after, rfl, hs, hb⟩
        · refine List.mem_cons_of_mem _ ((ih _).mpr ⟨before, after, rfl, ?_, hb⟩)
          rw [contains_insert, hs, Bool.or_false, decide_eq_false_iff_not]
          exact fun he => hne he.symm

/-- Of the values with one key the first one is kept. -/
theorem mem_distinctOn {α β : Type} [DecidableEq α] [Fingerprint α] (key : β → α) (ys : List β) (x : β) :
    x ∈ distinctOn key ys ↔
      ∃ before after, ys = before ++ x :: after ∧ ∀ y ∈ before, key y ≠ key x := by
  simp [distinctOn, FingerprintSet.mem_freshOn]

theorem Json.canonical_eq_null {a : Json} : a.canonical = .null ↔ a = .null := by
  cases a with
  | real x =>
    simp only [canonical]
    split <;> simp
  | null | bool | int | str | arr | obj => simp [canonical]

theorem Lock.tier?_congr {a a' b b' : Lock} (ha : a.canonical = a'.canonical)
    (hb : b.canonical = b'.canonical) (hac : a.aliasClass = a'.aliasClass)
    (hbc : b.aliasClass = b'.aliasClass) (same : Bool) : a.tier? b same = a'.tier? b' same := by
  simp only [Lock.canonical, Lock.mk.injEq] at ha hb
  obtain ⟨hsite, _, hreceiver, _, _⟩ := ha
  obtain ⟨_, _, hreceiver', _, _⟩ := hb
  have hnull : (a.receiver != .null) = (a'.receiver != .null) := by
    rw [Bool.eq_iff_iff, bne_iff_ne, bne_iff_ne, ne_eq, ne_eq, ← Json.canonical_eq_null, hreceiver,
      Json.canonical_eq_null]
  simp only [Lock.tier?, hac, hbc, hsite, hnull, Name.equals_congr hreceiver hreceiver']

namespace Detection

/-! ### Nestings by their events -/

/-- The two acquisitions stand on the path, and no release between them names the first. -/
structure Nesting.On (n : Nesting) (p : LockPath) : Prop where
  ordered : n.first.index < n.second.index
  first : p.events[n.first.index]? = some n.first.event
  second : p.events[n.second.index]? = some n.second.event
  firstAcquires : n.first.event.op = .acquire
  secondAcquires : n.second.event.op = .acquire
  unreleased : ∀ (i : Nat) (e : Event), n.first.index < i → i < n.second.index →
    p.events[i]? = some e → e.op = .release → e.acquired ≠ some (Int.ofNat n.first.index)

/-- Replaying a path finds the pairs of acquisitions with no release of the first between them. -/
theorem mem_nestings_iff {p : LockPath} {n : Nesting} : n ∈ nestings p ↔ n.On p := by
  rw [mem_nestings, mem_replay]
  constructor
  · rintro ⟨hs, hsa, hf, hfa, hr⟩
    have hlt : n.first.index < n.second.index := by
      have hl := (List.getElem?_eq_some_iff.mp hf).1
      rw [List.length_take] at hl
      omega
    rw [List.getElem?_take_of_lt hlt] at hf
    refine ⟨hlt, hf, hs, hfa, hsa, ?_⟩
    intro i e hi hj he
    exact hr i e hi (by rwa [List.getElem?_take_of_lt hj])
  · intro h
    refine ⟨h.second, h.secondAcquires, ?_, h.firstAcquires, ?_⟩
    · rw [List.getElem?_take_of_lt h.ordered]
      exact h.first
    · intro i e hi he
      have hl := (List.getElem?_eq_some_iff.mp he).1
      rw [List.length_take] at hl
      have hj : i < n.second.index := by omega
      rw [List.getElem?_take_of_lt hj] at he
      exact h.unreleased i e hi hj he

def Nesting.Earlier (m n : Nesting) : Prop :=
  m.second.index < n.second.index ∨
    m.second.index = n.second.index ∧ m.first.index < n.first.index

theorem nestingsAt_ordered {held : List Holding} (h : (held.map Holding.index).Pairwise (· < ·))
    (index : Nat) (e : Event) : (nestingsAt held index e).Pairwise Nesting.Earlier := by
  unfold nestingsAt
  split
  · rw [List.pairwise_map] at h ⊢
    exact h.imp fun hlt => .inr ⟨rfl, hlt⟩
  · exact .nil

theorem nestings_ordered (p : LockPath) : (nestings p).Pairwise Nesting.Earlier := by
  unfold nestings
  induction p.events using List.reverseRecOn with
  | nil => exact .nil
  | append_singleton es e ih =>
    rw [nestingsFrom_concat, List.pairwise_append]
    refine ⟨ih, nestingsAt_ordered (replay_ascending es).1 _ _, ?_⟩
    intro m hm n hn
    have hl := (List.getElem?_eq_some_iff.mp ((mem_nestingsFrom es m).mp hm).1).1
    obtain ⟨_, _, hs⟩ := mem_nestingsAt.mp hn
    left
    rw [hs]
    exact hl

/-! ### The first nesting of two classes -/

structure Nesting.IsWitness (n : Nesting) (p : LockPath) : Prop where
  on : n.On p
  differ : n.firstClass ≠ n.secondClass
  least : ∀ m : Nesting, m.On p → m.firstClass = n.firstClass → m.secondClass = n.secondClass →
    ¬ m.Earlier n

theorem Nesting.Earlier.irrefl (n : Nesting) : ¬ n.Earlier n := by
  rintro (h | ⟨_, h⟩) <;> exact Nat.lt_irrefl _ h

theorem Nesting.Earlier.asymm {m n : Nesting} (h : m.Earlier n) : ¬ n.Earlier m := by
  rcases h with h | ⟨he, h⟩ <;> rintro (h' | ⟨he', h'⟩) <;> omega

def orderings (p : LockPath) : List Nesting :=
  (nestings p).filter fun n => n.firstClass ≠ n.secondClass

theorem mem_orderings {p : LockPath} {n : Nesting} :
    n ∈ orderings p ↔ n.On p ∧ n.firstClass ≠ n.secondClass := by
  simp [orderings, mem_nestings_iff]

/-- The nestings that are kept of a path are the first ones of their classes. -/
theorem mem_firsts {p : LockPath} {n : Nesting} :
    n ∈ distinctOn (fun n => (n.firstClass, n.secondClass)) (orderings p) ↔ n.IsWitness p := by
  have hordered : (orderings p).Pairwise Nesting.Earlier :=
    (nestings_ordered p).sublist List.filter_sublist
  rw [mem_distinctOn]
  constructor
  · rintro ⟨before, after, hsplit, hnew⟩
    have hn : n ∈ orderings p := by simp [hsplit]
    obtain ⟨hon, hdiffer⟩ := mem_orderings.mp hn
    refine ⟨hon, hdiffer, ?_⟩
    intro m hm hfirst hsecond hearlier
    have hmem : m ∈ orderings p := mem_orderings.mpr ⟨hm, by rw [hfirst, hsecond]; exact hdiffer⟩
    rw [hsplit, List.mem_append, List.mem_cons] at hmem
    rw [hsplit, List.pairwise_append] at hordered
    rcases hmem with hmem | rfl | hmem
    · exact hnew m hmem (Prod.ext hfirst hsecond)
    · exact Nesting.Earlier.irrefl _ hearlier
    · exact ((List.pairwise_cons.mp hordered.2.1).1 m hmem).asymm hearlier
  · intro h
    obtain ⟨before, after, hsplit⟩ := List.append_of_mem (mem_orderings.mpr ⟨h.on, h.differ⟩)
    refine ⟨before, after, hsplit, ?_⟩
    intro m hm hkey
    obtain ⟨hfirst, hsecond⟩ := Prod.mk.inj hkey
    have hmem : m ∈ orderings p := by simp [hsplit, hm]
    rw [hsplit, List.pairwise_append] at hordered
    exact h.least m (mem_orderings.mp hmem).1 hfirst hsecond (hordered.2.2 m hm n List.mem_cons_self)

theorem mem_pathWitnesses {path : Nat} {p : LockPath} {w : Witness} :
    w ∈ pathWitnesses path p ↔ w.path = path ∧ w.degraded = p.degraded ∧ w.nesting.IsWitness p := by
  obtain ⟨number, degraded, nesting⟩ := w
  rw [← mem_firsts]
  simp only [pathWitnesses, orderings, List.mem_map, Witness.mk.injEq]
  constructor
  · rintro ⟨n, hn, rfl, rfl, rfl⟩
    exact ⟨rfl, rfl, hn⟩
  · rintro ⟨rfl, rfl, hn⟩
    exact ⟨nesting, hn, rfl, rfl, rfl⟩

/-! ### Paths that differ in spelling only -/

theorem mem_prepare_iff {paths : List LockPath} {p : LockPath} :
    p ∈ prepare paths ↔ p ∈ distinctOn LockPath.canonical paths :=
  LockPath.mem_sorted

theorem exists_prepared {paths : List LockPath} {p : LockPath} (h : p ∈ paths) :
    ∃ q ∈ prepare paths, q.canonical = p.canonical := by
  have hm : p.canonical ∈ (distinctOn LockPath.canonical paths).map LockPath.canonical := by
    rw [map_distinctOn, mem_distinct]
    exact List.mem_map_of_mem h
  obtain ⟨q, hq, he⟩ := List.mem_map.mp hm
  exact ⟨q, mem_prepare_iff.mpr hq, he⟩

theorem prepare_nodup (paths : List LockPath) : ((prepare paths).map LockPath.canonical).Nodup := by
  have hp := (orderOn_perm id (distinctOn LockPath.canonical paths)).map LockPath.canonical
  refine hp.nodup_iff.mpr ?_
  rw [map_distinctOn]
  exact nodup_distinct _

/-- Events that differ in spelling only agree in all that is not a name. -/
theorem unspelled_congr {e f : Event} (h : e.canonical = f.canonical) :
    e.op = f.op ∧ e.kind = f.kind ∧ e.location = f.location ∧ e.acquired = f.acquired ∧
      e.frame = f.frame := by
  simp only [Event.canonical, Event.mk.injEq] at h
  obtain ⟨hop, hkind, _, hlocation, _, _, _, hacquired, hframe⟩ := h
  exact ⟨hop, hkind, hlocation, hacquired, hframe⟩

theorem lock_congr {e f : Event} (h : e.canonical = f.canonical) : e.lock.canonical = f.lock.canonical :=
  congrArg Event.lock h

theorem degraded_congr {p q : LockPath} (h : q.canonical = p.canonical) : q.degraded = p.degraded := by
  simp only [LockPath.canonical, LockPath.mk.injEq] at h
  exact h.2.2

structure Nesting.Alike (m n : Nesting) : Prop where
  firstIndex : m.first.index = n.first.index
  secondIndex : m.second.index = n.second.index
  first : m.first.event.canonical = n.first.event.canonical
  second : m.second.event.canonical = n.second.event.canonical

theorem aliasClass_congr {e f : Event} (h : e.canonical = f.canonical) : e.aliasClass = f.aliasClass := by
  have hlock := lock_congr h
  simp only [Lock.canonical, Lock.mk.injEq] at hlock
  obtain ⟨hsite, hname, _, htype, hheap⟩ := hlock
  have horElse : (e.lock.receiverType.orElse (.str "")).canonical =
      (f.lock.receiverType.orElse (.str "")).canonical := by
    simp only [Name.orElse, Name.truthy_congr htype]
    split
    · exact htype
    · rfl
  simp only [Event.aliasClass, Lock.aliasClass, hsite, hname, hheap, horElse]

theorem Nesting.Alike.firstClass {m n : Nesting} (h : m.Alike n) : m.firstClass = n.firstClass :=
  aliasClass_congr h.first

theorem Nesting.Alike.secondClass {m n : Nesting} (h : m.Alike n) : m.secondClass = n.secondClass :=
  aliasClass_congr h.second

theorem Nesting.Alike.sameActivation {m n : Nesting} (h : m.Alike n) :
    m.sameActivation = n.sameActivation := by
  have hinst : ∀ {e f : Event}, e.canonical = f.canonical → e.inst.canonical = f.inst.canonical := by
    intro e f he
    exact congrArg Event.inst he
  obtain ⟨_, _, _, _, hfirst⟩ := unspelled_congr h.first
  obtain ⟨_, _, _, _, hsecond⟩ := unspelled_congr h.second
  simp only [Nesting.sameActivation, hfirst, hsecond,
    Name.equals_congr (hinst h.first) (hinst h.second)]

theorem Nesting.Alike.surelyBlocks {m n : Nesting} (h : m.Alike n) (hn : n.SurelyBlocks) :
    m.SurelyBlocks := by
  obtain ⟨_, hfirst, _⟩ := unspelled_congr h.first
  obtain ⟨_, hsecond, _⟩ := unspelled_congr h.second
  have htier := Lock.tier?_congr (lock_congr h.first) (lock_congr h.second) h.firstClass h.secondClass
  refine ⟨?_, ?_, ?_, ?_⟩
  · rw [h.sameActivation, htier]
    exact hn.exact
  · rw [hfirst]
    exact hn.first
  · rw [hsecond]
    exact hn.second
  · rw [hfirst, hsecond]
    exact hn.unshared

theorem getElem?_alike {p q : LockPath} (h : q.canonical = p.canonical) {i : Nat} {e : Event}
    (he : p.events[i]? = some e) : ∃ f, q.events[i]? = some f ∧ f.canonical = e.canonical := by
  have hevents : q.events.map Event.canonical = p.events.map Event.canonical :=
    congrArg LockPath.events h
  have hget := congrArg (fun es : List Event => es[i]?) hevents
  simp only [List.getElem?_map, he, Option.map_some] at hget
  exact Option.map_eq_some_iff.mp hget

theorem Nesting.On.exists_alike {p q : LockPath} (h : q.canonical = p.canonical) {n : Nesting}
    (hn : n.On p) : ∃ m : Nesting, m.On q ∧ m.Alike n := by
  obtain ⟨first, hf, hfc⟩ := getElem?_alike h hn.first
  obtain ⟨second, hs, hsc⟩ := getElem?_alike h hn.second
  refine ⟨⟨⟨n.first.index, first⟩, ⟨n.second.index, second⟩⟩,
    ⟨hn.ordered, hf, hs, ?_, ?_, ?_⟩, ⟨rfl, rfl, hfc, hsc⟩⟩
  · exact (unspelled_congr hfc).1.trans hn.firstAcquires
  · exact (unspelled_congr hsc).1.trans hn.secondAcquires
  · intro i e hi hj he hrel
    obtain ⟨f, hfe, hfc⟩ := getElem?_alike h.symm he
    obtain ⟨hop, _, _, hacquired, _⟩ := unspelled_congr hfc
    rw [← hacquired]
    exact hn.unreleased i f hi hj hfe (hop.trans hrel)

/-- What is the first nesting on a path has its like among the first nestings on the other. -/
theorem Nesting.IsWitness.exists_alike {p q : LockPath} (h : q.canonical = p.canonical) {n : Nesting}
    (hn : n.IsWitness p) : ∃ m : Nesting, m.IsWitness q ∧ m.Alike n := by
  obtain ⟨m, hm, hmn⟩ := hn.on.exists_alike h
  refine ⟨m, ⟨hm, by rw [hmn.firstClass, hmn.secondClass]; exact hn.differ, ?_⟩, hmn⟩
  intro l hl hfirst hsecond hearlier
  obtain ⟨k, hk, hkl⟩ := hl.exists_alike h.symm
  refine hn.least k hk ?_ ?_ ?_
  · rw [hkl.firstClass, hfirst, hmn.firstClass]
  · rw [hkl.secondClass, hsecond, hmn.secondClass]
  · unfold Nesting.Earlier at hearlier ⊢
    rw [hkl.firstIndex, hkl.secondIndex, ← hmn.firstIndex, ← hmn.secondIndex]
    exact hearlier

end Detection

end LockAudit
