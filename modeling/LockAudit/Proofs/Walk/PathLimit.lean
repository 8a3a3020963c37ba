import LockAudit.Proofs.Order.Sorted
import LockAudit.Proofs.Walk.Enumeration
import LockAudit.Proofs.Walk.Naming
import LockAudit.Proofs.Walk.Returning

/-! # The limit of paths

An exploration keeps no more paths than its limit, and no two with the same events. A higher limit changes
nothing in what is found up to the point where the lower one cuts the exploration short: the paths of the
lower limit are the first ones of the higher limit, and all of them where nothing was cut.
-/

namespace LockAudit.Walk

variable {g : CallGraph} {options more : Options} {root : Name}

/-! ### What is kept -/

def EventsDiffer (p q : LockPath) : Prop :=
  p.events.map Event.canonical ≠ q.events.map Event.canonical

/-- The paths of an exploration on its way: no more than the limit, each with an acquisition, no two with the
same events, and the events of all of them known. -/
structure Progress.Sound (options : Options) (p : Progress) : Prop where
  length_le : p.paths.length ≤ options.maxPaths
  acquires : ∀ q ∈ p.paths, q.hasAcquisition = true
  differ : p.paths.Pairwise EventsDiffer
  indexed : Indexed p

theorem Progress.sound_start (options : Options) (root : Name) : (Progress.start root).Sound options where
  length_le := Nat.zero_le _
  acquires := by simp [Progress.start]
  differ := .nil
  indexed := by
    intro events
    simp [Progress.start, FingerprintSet.contains_empty]

/-- A path is kept only if it has an acquisition and its events are not known. -/
theorem keep_fresh {p q : Progress} {t : Trace} (h : p.keep root t = .ok q) :
    q.paths = p.paths ∨ ∃ path : LockPath, q.paths = path :: p.paths ∧ path.hasAcquisition = true ∧
      p.known.contains (path.events.map Event.canonical) = false := by
  unfold Progress.keep at h
  dsimp only at h
  split at h
  · cases h
    exact .inl rfl
  · rename_i hacquires
    split at h
    · cases h
    · split at h
      · cases h
        exact .inl rfl
      · rename_i hknown
        cases h
        exact .inr ⟨_, rfl, by simpa using hacquires, Bool.eq_false_iff.mpr hknown⟩

theorem absorb_fresh {p q : Progress} {a : Advanced} (h : p.absorb root a = .ok q) :
    q.paths = p.paths ∨ ∃ path : LockPath, q.paths = path :: p.paths ∧ path.hasAcquisition = true ∧
      p.known.contains (path.events.map Event.canonical) = false := by
  unfold Progress.absorb at h
  dsimp only at h
  split at h
  · have hkept := keep_fresh h
    exact hkept
  · cases h
    exact .inl rfl

theorem absorb_indexed {p q : Progress} {a : Advanced} (h : p.absorb root a = .ok q)
    (hp : Indexed p) : Indexed q := by
  obtain ⟨_, _, ⟨trace, _, hkept⟩ | ⟨_, _, hpaths, hknown⟩⟩ := absorb_cases h
  · exact (hkept.indexed hp).1
  · intro events
    rw [hpaths, hknown]
    exact hp events

theorem Progress.Sound.absorb {p q : Progress} {a : Advanced} (hp : p.Sound options)
    (hroom : p.paths.length < options.maxPaths) (h : p.absorb root a = .ok q) : q.Sound options := by
  have hindexed := absorb_indexed h hp.indexed
  rcases absorb_fresh h with hpaths | ⟨path, hpaths, hacquires, hfresh⟩
  · exact ⟨hpaths ▸ hp.length_le, hpaths ▸ hp.acquires, hpaths ▸ hp.differ, hindexed⟩
  · refine ⟨?_, ?_, ?_, hindexed⟩
    · rw [hpaths]
      exact hroom
    · rw [hpaths]
      exact List.forall_mem_cons.mpr ⟨hacquires, hp.acquires⟩
    · rw [hpaths]
      refine List.pairwise_cons.mpr ⟨?_, hp.differ⟩
      intro other hother hsame
      have hknown := (hp.indexed _).mpr ⟨other, hother, hsame.symm⟩
      rw [hfresh] at hknown
      cases hknown

theorem exploreFrom_sound {fuel : Nat} {p : Progress} {e : Exploration} (hp : p.Sound options)
    (h : exploreFrom g options root fuel p = .ok e) :
    e.paths.length ≤ options.maxPaths ∧ (∀ q ∈ e.paths, q.hasAcquisition = true) ∧
      e.paths.Pairwise EventsDiffer := by
  induction fuel generalizing p with
  | zero => cases h
  | succ fuel ih =>
    obtain ⟨he, _⟩ | ⟨s, rest, a, q, _, hfull, _, hq, h⟩ := exploreFrom_cases h
    · rw [he, List.length_reverse, List.pairwise_reverse]
      refine ⟨hp.length_le, by simpa using hp.acquires, hp.differ.imp ?_⟩
      exact fun hne hsame => hne hsame.symm
    · simp only [Progress.isFull, Bool.or_eq_false_iff, decide_eq_false_iff_not, Nat.not_le] at hfull
      have hrest : { p with work := rest, started := p.started + 1 }.Sound options :=
        ⟨hp.length_le, hp.acquires, hp.differ, hp.indexed⟩
      exact ih (hrest.absorb hfull.1 hq) h

theorem explore_sound {fuel : Nat} {e : Exploration} (h : explore g options fuel root = .ok e) :
    e.paths.length ≤ options.maxPaths ∧ (∀ q ∈ e.paths, q.hasAcquisition = true) ∧
      e.paths.Pairwise EventsDiffer := by
  rcases explore_cases h with h | ⟨hpaths, _⟩
  · exact exploreFrom_sound (Progress.sound_start options root) h
  · simp [hpaths]

/-! ### Two limits -/

/-- The two options bound walks in the same way, and the second ones keep at least as many paths. -/
structure Raises (options more : Options) : Prop where
  depth : more.maxDepth = options.maxDepth
  revisits : more.maxRevisits = options.maxRevisits
  paths : options.maxPaths ≤ more.maxPaths

theorem Raises.jumps (h : Raises options more) (s : State) (targets : List Target) :
    s.jumps more targets = s.jumps options targets := by
  simp only [State.jumps, State.allowed, h.revisits]

theorem Raises.calls (h : Raises options more) (s : State) (c : Call) :
    s.calls g more c = s.calls g options c := by
  have hinline : State.canInline g more s = State.canInline g options s := by
    funext callee
    simp only [State.canInline, h.depth, h.revisits]
  have hinlined : s.inlined g more c.site = s.inlined g options c.site := by
    unfold State.inlined
    rw [hinline]
  simp only [State.calls, hinlined, h.jumps]

/-- How many paths are kept makes no difference to a step. -/
theorem Raises.step (h : Raises options more) (s : State) : s.step g more = s.step g options := by
  have hfinish : ∀ (t : State) (terminator : Terminator),
      t.finish g more terminator = t.finish g options terminator := by
    intro t terminator
    cases terminator with
    | ret => rfl
    | goto targets => simp only [State.finish, State.jump, h.jumps]
    | call c => simp only [State.finish, State.call, h.calls]
  simp only [State.step, hfinish]

theorem Raises.advance (h : Raises options more) (fuel : Nat) (seen : Seen) (log : List LogRecord)
    (settled : Option Trace) (s : State) :
    advance g more fuel seen log settled s = advance g options fuel seen log settled s := by
  induction fuel generalizing seen log settled s with
  | zero => rfl
  | succ fuel ih =>
    rw [advance.eq_2 g more, advance.eq_2 g options]
    simp only [h.step, ih]

theorem Raises.isFull (h : Raises options more) {p : Progress} (hp : p.isFull more = true) :
    p.isFull options = true := by
  simp only [Progress.isFull, Bool.or_eq_true, decide_eq_true_eq] at hp ⊢
  refine hp.imp h.paths.trans fun hstarted => ?_
  exact (Nat.mul_le_mul_right startsPerPath h.paths).trans hstarted

/-- What was found stays in front of what is found later. -/
theorem exploreFrom_extends {fuel : Nat} {p : Progress} {e : Exploration}
    (h : exploreFrom g options root fuel p = .ok e) : p.paths.reverse <+: e.paths := by
  induction fuel generalizing p with
  | zero => cases h
  | succ fuel ih =>
    obtain ⟨he, _⟩ | ⟨s, rest, a, q, _, _, _, hq, h⟩ := exploreFrom_cases h
    · rw [he]
    · refine List.IsPrefix.trans ?_ (ih h)
      rcases absorb_fresh hq with hpaths | ⟨path, hpaths, _⟩
      · rw [hpaths]
      · rw [hpaths, List.reverse_cons]
        exact List.prefix_append _ _

/-- Where an exploration with the higher limit ends, so does the one with the lower limit. It finds a
beginning of the same paths, and it is the same exploration unless it is cut short. -/
theorem Raises.exploreFrom (h : Raises options more) {fuel : Nat} {p : Progress} {e' : Exploration}
    (h' : exploreFrom g more root fuel p = .ok e') :
    ∃ e, exploreFrom g options root fuel p = .ok e ∧ e.paths <+: e'.paths ∧ (e.cut = false → e' = e) := by
  induction fuel generalizing p with
  | zero => cases h'
  | succ fuel ih =>
    have hextends := exploreFrom_extends h'
    rw [Walk.exploreFrom.eq_2 g options]
    rw [Walk.exploreFrom.eq_2 g more] at h'
    cases hwork : p.work with
    | nil =>
      rw [hwork] at h'
      cases h'
      exact ⟨_, rfl, List.prefix_rfl, fun _ => rfl⟩
    | cons s rest =>
      rw [hwork] at h'
      dsimp only at h' ⊢
      by_cases hfull : p.isFull options = true
      · rw [if_pos hfull]
        exact ⟨_, rfl, hextends, fun hcut => Bool.noConfusion hcut⟩
      · rw [if_neg hfull]
        rw [if_neg fun hmore => hfull (h.isFull hmore), h.advance] at h'
        -- neither is full: both take over the same advance
        cases ha : Walk.advance g options fuel p.seen p.log none s with
        | error fault =>
          rw [ha] at h'
          cases h'
        | ok a =>
          rw [ha] at h'
          dsimp only at h' ⊢
          cases hq : { p with work := rest, started := p.started + 1 }.absorb root a with
          | error fault =>
            rw [hq] at h'
            cases h'
          | ok q =>
            rw [hq] at h'
            exact ih h'

theorem Raises.explore (h : Raises options more) {fuel : Nat} {e' : Exploration}
    (h' : explore g more fuel root = .ok e') :
    ∃ e, explore g options fuel root = .ok e ∧ e.paths <+: e'.paths ∧ (e.cut = false → e' = e) := by
  unfold Walk.explore at h' ⊢
  split at h'
  · cases h'
  · split at h'
    · rename_i hbody
      cases h'
      rw [if_pos hbody]
      exact ⟨_, rfl, List.prefix_rfl, fun _ => rfl⟩
    · rename_i hbody
      rw [if_neg hbody]
      exact h.exploreFrom h'

/-- More fuel does not change what an exploration that ended has found. -/
theorem explore_of_le {fuel n : Nat} {e : Exploration} (h : explore g options fuel root = .ok e)
    (hn : fuel ≤ n) : explore g options n root = .ok e := by
  have hanswers : Answers fuel (fun n => explore g options n root) (explore g options fuel root) := by
    refine answers_of_succ ?_ ?_
    · exact fun _ hne => explore_succ hne
    · simp [h]
  exact (hanswers.2 n hn).trans h

/-! ### The paths of a root -/

theorem pathsFrom_differ {fuel : Nat} {paths : List LockPath}
    (h : pathsFrom g options fuel root = .ok paths) : paths.Pairwise EventsDiffer := by
  obtain ⟨e, he, rfl⟩ := except_map_eq_ok h
  obtain ⟨_, _, hdiffer⟩ := explore_sound he
  have hperm : (LockPath.sorted e.paths).Perm e.paths := orderOn_perm id e.paths
  exact (hperm.pairwise_iff fun hne hsame => hne hsame.symm).mpr hdiffer

theorem pathsFrom_ascending {fuel : Nat} {paths : List LockPath}
    (h : pathsFrom g options fuel root = .ok paths) (htexts : ∀ i ∈ g.instances, i.id.isText = true) :
    paths.Pairwise fun p q => (compare p q).isLE = true := by
  obtain ⟨e, he, rfl⟩ := except_map_eq_ok h
  have hsorted : LockPath.sorted e.paths = sortOn id e.paths :=
    orderOn_of_plain (isPlain_of_explore he htexts)
  rw [hsorted]
  exact sortOn_ascending id e.paths

/-- The paths of a root are no more than the limit, each has an acquisition, no two have the same events, and
they stand in their stable order. With a higher limit all of them are found again, and no others unless the
lower limit cut the exploration short. -/
theorem path_limit_truncates {fuel : Nat} {paths : List LockPath}
    (h : pathsFrom g options fuel root = .ok paths) :
    paths.length ≤ options.maxPaths ∧ (∀ p ∈ paths, p.hasAcquisition = true) ∧
    paths.Pairwise EventsDiffer ∧
    ((∀ i ∈ g.instances, i.id.isText = true) → paths.Pairwise fun p q => (compare p q).isLE = true) ∧
    ∀ more, Raises options more → ∀ fuel' paths', pathsFrom g more fuel' root = .ok paths' →
      (∀ p ∈ paths, p ∈ paths') ∧
      ∀ e, explore g options fuel root = .ok e → e.cut = false → paths' = paths := by
  have hdiffer := pathsFrom_differ h
  have hascending := pathsFrom_ascending h
  obtain ⟨e, he, rfl⟩ := except_map_eq_ok h
  obtain ⟨hlength, hacquires, _⟩ := explore_sound he
  refine ⟨(orderOn_perm id e.paths).length_eq ▸ hlength, ?_, hdiffer, hascending, ?_⟩
  · intro p hp
    exact hacquires p (LockPath.mem_sorted.mp hp)
  · intro more hraises fuel' paths' h'
    obtain ⟨e', he', rfl⟩ := except_map_eq_ok h'
    -- compare the two explorations with the larger fuel
    obtain ⟨d, hd, hfirst, hsame⟩ := hraises.explore (explore_of_le he' (Nat.le_max_right fuel fuel'))
    rw [explore_of_le he (Nat.le_max_left fuel fuel')] at hd
    cases hd
    refine ⟨?_, ?_⟩
    · intro p hp
      exact LockPath.mem_sorted.mpr (hfirst.subset (LockPath.mem_sorted.mp hp))
    · intro d hd hcut
      rw [he] at hd
      cases hd
      rw [hsame hcut]

/-- Of the two paths that a branch has, a limit of one keeps one. -/
theorem path_limit_truncates_branches :
    ∃ p paths, pathsFrom (jumping [.int 1, .int 2]) { maxPaths := 1 } 9 (.str "main") = .ok [p] ∧
      pathsFrom (jumping [.int 1, .int 2]) {} 9 (.str "main") = .ok paths ∧ paths.length = 2 ∧
      p ∈ paths ∧ paths.Pairwise EventsDiffer := by
  have hone : (pathsFrom (jumping [.int 1, .int 2]) { maxPaths := 1 } 9 (.str "main")).map
      List.length = .ok 1 := by
    decide +kernel
  have htwo : (explore (jumping [.int 1, .int 2]) {} 9 (.str "main")).map
      (fun e => e.paths.length) = .ok 2 := by
    decide +kernel
  obtain ⟨_, hp, hlength⟩ := except_map_eq_ok hone
  obtain ⟨p, rfl⟩ := List.length_eq_one_iff.mp hlength
  obtain ⟨e, he, hlength⟩ := except_map_eq_ok htwo
  have hpaths : pathsFrom (jumping [.int 1, .int 2]) {} 9 (.str "main") =
      .ok (LockPath.sorted e.paths) := by
    simp only [pathsFrom, he, Except.map]
  have hraises : Raises { maxPaths := 1 } {} := ⟨rfl, rfl, by decide⟩
  refine ⟨p, _, hp, hpaths, (orderOn_perm id e.paths).length_eq.trans hlength, ?_, ?_⟩
  · exact ((path_limit_truncates hp).2.2.2.2 {} hraises 9 _ hpaths).1 p List.mem_cons_self
  · exact (path_limit_truncates hpaths).2.2.1

end LockAudit.Walk
