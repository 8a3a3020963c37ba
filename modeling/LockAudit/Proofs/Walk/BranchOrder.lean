import LockAudit.Proofs.Program.Branching
import LockAudit.Proofs.Walk.Enumeration
import LockAudit.Proofs.Walk.Stack

/-! # Walks do not depend on the order of branches

The states that may follow a jump are the same in whatever order its targets are listed, and so are the
states that walks reach and those in which they are over. The order tells which states are met first. That
makes a difference to what is recorded: a traversal may be recorded early, and of two traversals with the
same events only the first is kept, whether it is degraded or not.
-/

namespace LockAudit

def LockPath.mark (l : LockPath) : List Event × Bool :=
  (l.events.map Event.canonical, l.degraded)

namespace Walk

variable {g g' : CallGraph} {options : Options}

/-! ### Steps -/

inductive Reordered : Except Fault Next → Except Fault Next → Prop
  | same (next : Except Fault Next) : Reordered next next
  | onward (s : State) {children children' : List State} (h : children'.Perm children) :
    Reordered (.ok (.onward s children)) (.ok (.onward s children'))

theorem Reordered.cases {m n : Except Fault Next} (h : Reordered m n) : n = m ∨
    ∃ s children children', m = .ok (.onward s children) ∧ n = .ok (.onward s children') ∧
      children'.Perm children := by
  cases h with
  | same => exact .inl rfl
  | onward s hperm => exact .inr ⟨s, _, _, rfl, rfl, hperm⟩

theorem jumps_perm (s : State) {targets targets' : List Target} (h : targets'.Perm targets) :
    (s.jumps options targets').Perm (s.jumps options targets) := by
  unfold State.jumps State.allowed
  refine List.Perm.map _ ?_
  split
  · exact .nil
  · exact h.filter _

section Steps

variable (hg : g.Rebranched g')

include hg

theorem markCall_eq_of_rebranched (s : State) (site : Name) : s.markCall g' site = s.markCall g site := by
  unfold State.markCall
  simp only [hg.isUnresolved_eq]

theorem canInline_eq_of_rebranched (s : State) (callee : Name) :
    s.canInline g' options callee = s.canInline g options callee := by
  unfold State.canInline
  obtain ⟨hi, hi'⟩ | ⟨i, i', hi, hi', hrel⟩ := option_rel_cases (hg.instance? callee)
  · rw [hi, hi']
  · rw [hi, hi']
    simp only [isSome_eq_of_rel hrel.body]

theorem calls_eq_of_rebranched (s : State) (c : Call) : s.calls g' options c = s.calls g options c := by
  have hinlined : s.inlined g' options c.site = s.inlined g options c.site := by
    unfold State.inlined
    simp only [hg.callees_eq, funext (canInline_eq_of_rebranched hg s)]
  unfold State.calls
  rw [hinlined]

theorem finish_reordered (s : State) {t t' : Terminator} (h : t.Rebranched t') :
    Reordered (s.finish g options t) (s.finish g' options t') := by
  cases h with
  | ret value location => exact .same _
  | call c =>
    simp only [State.finish, State.call, markCall_eq_of_rebranched hg, calls_eq_of_rebranched hg]
    exact .same _
  | goto hperm =>
    simp only [State.finish, State.jump, hperm.all_eq]
    split
    · exact .onward s (jumps_perm s hperm)
    · exact .same _

theorem blockAt_rebranched (inst : Name) (block : Target) :
    (∃ e, blockAt g inst block = .error e ∧ blockAt g' inst block = .error e) ∨
      ∃ b b', blockAt g inst block = .ok b ∧ blockAt g' inst block = .ok b' ∧ b.Rebranched b' := by
  unfold blockAt
  obtain ⟨hi, hi'⟩ | ⟨i, i', hi, hi', hrel⟩ := option_rel_cases (hg.instance? inst)
  · rw [hi, hi']
    exact .inl ⟨_, rfl, rfl⟩
  · rw [hi, hi']
    dsimp only
    obtain ⟨hb, hb'⟩ | ⟨body, body', hb, hb', hbody⟩ := option_rel_cases hrel.body
    · rw [hb, hb']
      exact .inl ⟨_, rfl, rfl⟩
    · rw [hb, hb']
      dsimp only
      cases Target.index? block with
      | none => exact .inl ⟨_, rfl, rfl⟩
      | some index =>
        dsimp only
        obtain ⟨hx, hx'⟩ | ⟨b, b', hx, hx', hblock⟩ := option_rel_cases (hbody.block? index)
        · rw [hx, hx']
          exact .inl ⟨_, rfl, rfl⟩
        · rw [hx, hx']
          exact .inr ⟨b, b', rfl, rfl, hblock⟩

/-- A step comes out alike, up to the order of the states that may follow. -/
theorem step_reordered (options : Options) (s : State) :
    Reordered (s.step g options) (s.step g' options) := by
  unfold State.step
  split
  · exact .same _
  · rename_i frame callers _
    split
    · exact .same _
    · rename_i block _
      obtain ⟨e, hb, hb'⟩ | ⟨b, b', hb, hb', hblock⟩ := blockAt_rebranched hg frame.inst block
      · rw [hb, hb']
        exact .same _
      · rw [hb, hb']
        dsimp only
        rw [hblock.statements]
        exact finish_reordered hg _ hblock.terminator

/-! ### Walks -/

theorem follows_iff_of_rebranched {s t : State} : Follows g' options s t ↔ Follows g options s t := by
  obtain heq | ⟨u, children, children', hstep, hstep', hperm⟩ := (step_reordered hg options s).cases
  · constructor
    · rintro (h | ⟨h, hc⟩)
      · exact .returned (heq ▸ h)
      · exact .onward (heq ▸ h) hc
    · rintro (h | ⟨h, hc⟩)
      · exact .returned (heq.trans h)
      · exact .onward (heq.trans h) hc
  · constructor
    · rintro (h | ⟨h, hc⟩) <;> rw [hstep'] at h <;> cases h
      exact .onward hstep (hperm.mem_iff.mp hc)
    · rintro (h | ⟨h, hc⟩) <;> rw [hstep] at h <;> cases h
      exact .onward hstep' (hperm.mem_iff.mpr hc)

theorem reaches_iff_of_rebranched {root : Name} {s : State} :
    Reaches g' options root s ↔ Reaches g options root s := by
  have hfollows : Follows g' options = Follows g options :=
    funext fun s => funext fun t => propext (follows_iff_of_rebranched hg)
  rw [Reaches, Reaches, hfollows]

theorem ends_iff_of_rebranched {s t : State} : Ends g' options s t ↔ Ends g options s t := by
  obtain heq | ⟨u, children, children', hstep, hstep', hperm⟩ := (step_reordered hg options s).cases
  · rw [Ends, Ends, heq]
  · rw [Ends, Ends, hstep, hstep']
    constructor
    · rintro (h | h) <;> cases h
      exact .inr (by rw [hperm.nil_eq])
    · rintro (h | h) <;> cases h
      exact .inr (by rw [hperm.eq_nil])

/-- Complete walks are the same, whatever the order of the branches. -/
theorem completes_iff_of_rebranched {root : Name} {t : State} :
    Completes g' options root t ↔ Completes g options root t := by
  simp only [Completes, reaches_iff_of_rebranched hg, ends_iff_of_rebranched hg]

end Steps

/-! ### Records -/

theorem any_isAcquire_mark (t : Trace) : t.mark.1.any Event.isAcquire = t.events.any Event.isAcquire := by
  rw [Trace.mark, List.any_map]
  rfl

/-- What was recorded of the traversals is what they came to, apart from traces without an acquisition. -/
structure Undistorted (ts : List Traversal) : Prop where
  recorded : ∀ t ∈ ts, t.recorded.events.any Event.isAcquire = true →
    ∃ u ∈ ts, u.final.mark = t.recorded.mark
  final : ∀ t ∈ ts, t.final.events.any Event.isAcquire = true →
    ∃ u ∈ ts, u.recorded.mark = t.final.mark

/-- Traversals that come to the same events, with an acquisition, are all degraded or none is. -/
def Unambiguous (ts : List Traversal) : Prop :=
  ∀ t ∈ ts, ∀ u ∈ ts, t.final.events.any Event.isAcquire = true →
    t.final.mark.1 = u.final.mark.1 → t.final.degraded = u.final.degraded

instance (ts : List Traversal) : Decidable (Undistorted ts) :=
  decidable_of_iff ((∀ t ∈ ts, t.recorded.events.any Event.isAcquire = true →
      ∃ u ∈ ts, u.final.mark = t.recorded.mark) ∧
      ∀ t ∈ ts, t.final.events.any Event.isAcquire = true → ∃ u ∈ ts, u.recorded.mark = t.final.mark)
    ⟨fun h => ⟨h.1, h.2⟩, fun h => ⟨h.recorded, h.final⟩⟩

instance (ts : List Traversal) : Decidable (Unambiguous ts) :=
  inferInstanceAs (Decidable (∀ t ∈ ts, ∀ u ∈ ts, t.final.events.any Event.isAcquire = true →
    t.final.mark.1 = u.final.mark.1 → t.final.degraded = u.final.degraded))

theorem keep_paths {p q : Progress} {root : Name} {t : Trace} (h : p.keep root t = .ok q) :
    ∀ l ∈ q.paths, l ∈ p.paths ∨ (l = { root, events := t.events, degraded := t.degraded } ∧
      t.events.any Event.isAcquire = true ∧ t.events.all Event.isKeyed = true) := by
  unfold Progress.keep at h
  dsimp only at h
  split at h
  · cases h
    exact fun l hl => .inl hl
  · rename_i hacquires
    split at h
    · cases h
    · rename_i hkeyed
      split at h
      · cases h
        exact fun l hl => .inl hl
      · cases h
        intro l hl
        rcases List.mem_cons.mp hl with rfl | hl
        · refine .inr ⟨rfl, ?_, by simpa using hkeyed⟩
          simpa [LockPath.hasAcquisition] using hacquires
        · exact .inl hl

structure RecordedAmong (root : Name) (ts : List Traversal) (l : LockPath) : Prop where
  root : l.root = root
  recorded : ∃ t ∈ ts, t.recorded = ⟨l.events, l.degraded⟩
  acquires : l.events.any Event.isAcquire = true
  keyed : l.events.all Event.isKeyed = true

theorem RecordedAmong.mono {root : Name} {ts us : List Traversal} {l : LockPath}
    (h : RecordedAmong root ts l) (hsub : ∀ t ∈ ts, t ∈ us) : RecordedAmong root us l := by
  obtain ⟨t, ht, hrecorded⟩ := h.recorded
  exact ⟨h.root, ⟨t, hsub t ht, hrecorded⟩, h.acquires, h.keyed⟩

theorem absorb_paths {root : Name} {fuel : Nat} {seen : Seen} {log : List LogRecord} {s : State}
    {a : Advanced} (ha : advance g options fuel seen log none s = .ok a) {p q : Progress}
    (h : p.absorb root a = .ok q) :
    ∀ l ∈ q.paths, l ∈ p.paths ∨ RecordedAmong root (ended? g options fuel seen s a).toList l := by
  unfold Progress.absorb at h
  dsimp only at h
  split at h
  · rename_i trace ho
    intro l hl
    obtain hl | ⟨rfl, hacquires, hkeyed⟩ := keep_paths h l hl
    · exact .inl hl
    · obtain ⟨_, t, ho', _, he⟩ | ⟨_, ho', _⟩ := advance_ended ha <;> rw [ho] at ho' <;> cases ho'
      rw [he]
      exact .inr ⟨rfl, ⟨_, List.mem_singleton_self _, rfl⟩, hacquires, hkeyed⟩
  · cases h
    exact fun l hl => .inl hl

/-- Every path that an exploration adds is recorded of one of its traversals. -/
theorem exploreFrom_recordedAmong {root : Name} {fuel : Nat} {p : Progress} {e : Exploration}
    (h : exploreFrom g options root fuel p = .ok e) :
    ∀ l ∈ e.paths, l ∈ p.paths ∨ RecordedAmong root (traversals g options root fuel p) l := by
  induction fuel generalizing p with
  | zero => cases h
  | succ fuel ih =>
    obtain ⟨he, _⟩ | ⟨s, rest, a, q, hw, hfull, ha, hq, h⟩ := exploreFrom_cases h
    · intro l hl
      rw [he, List.mem_reverse] at hl
      exact .inl hl
    · intro l hl
      rw [traversals_cons hw hfull ha hq]
      rcases ih h l hl with hl | hl
      · rcases absorb_paths ha hq l hl with hl | hl
        · exact .inl hl
        · exact .inr (hl.mono fun t ht => List.mem_append_left _ ht)
      · exact .inr (hl.mono fun t ht => List.mem_append_right _ ht)

theorem explore_recordedAmong {root : Name} {fuel : Nat} {e : Exploration}
    (h : explore g options fuel root = .ok e) {l : LockPath} (hl : l ∈ e.paths) :
    RecordedAmong root (traversals g options root fuel (.start root)) l := by
  rcases explore_cases h with h | ⟨hpaths, _⟩
  · exact (exploreFrom_recordedAmong h l hl).resolve_left (by simp [Progress.start])
  · rw [hpaths] at hl
    cases hl

/-- The paths of a root are the complete walks with an acquisition, if what was recorded of them is what
they came to and their events tell whether they are degraded. -/
theorem explore_marks {root : Name} {fuel : Nat} {e : Exploration}
    (h : explore g options fuel root = .ok e) (hcut : e.cut = false)
    (hrecords : Undistorted (traversals g options root fuel (.start root)))
    (hflags : Unambiguous (traversals g options root fuel (.start root))) (mark : List Event × Bool) :
    (∃ l ∈ e.paths, l.mark = mark) ↔
      mark.1.any Event.isAcquire = true ∧ ∃ t, Completes g options root t ∧ t.trace.mark = mark := by
  rw [explore_finals h hcut]
  -- a path says what some traversal comes to
  have hfinal : ∀ l ∈ e.paths, l.mark.1.any Event.isAcquire = true ∧
      ∃ t ∈ traversals g options root fuel (.start root), t.final.mark = l.mark := by
    intro l hl
    obtain ⟨_, ⟨t, ht, hrecorded⟩, hacquires, _⟩ := explore_recordedAmong h hl
    have hmark : t.recorded.mark = l.mark := by rw [hrecorded]; rfl
    refine ⟨?_, ?_⟩
    · rw [← hmark, any_isAcquire_mark, hrecorded]
      exact hacquires
    · rw [← hmark]
      exact hrecords.recorded t ht (by rw [hrecorded]; exact hacquires)
  constructor
  · rintro ⟨l, hl, rfl⟩
    exact hfinal l hl
  · rintro ⟨hacquires, t, ht, rfl⟩
    rw [any_isAcquire_mark] at hacquires
    obtain ⟨u, hu, hmark⟩ := hrecords.final t ht hacquires
    have hevents : u.recorded.events.map Event.canonical = t.final.mark.1 := congrArg Prod.fst hmark
    have hrecorded : u.recorded.events.any Event.isAcquire = true := by
      rw [← any_isAcquire_mark, hmark, any_isAcquire_mark]
      exact hacquires
    obtain ⟨l, hl, hle⟩ := (explore_paths h hcut _).mpr ⟨u, hu, hrecorded, rfl⟩
    obtain ⟨_, v, hv, hvl⟩ := hfinal l hl
    have hsame : t.final.mark.1 = v.final.mark.1 := by
      rw [hvl]
      exact (hle.trans hevents).symm
    refine ⟨l, hl, ?_⟩
    rw [← hvl]
    exact Prod.ext hsame.symm (hflags t ht v hv hacquires hsame).symm

end Walk

end LockAudit
