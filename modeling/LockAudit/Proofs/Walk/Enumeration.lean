import LockAudit.Proofs.Walk.Closure

/-! # When the paths of a root are complete

A complete walk makes every choice freely and goes on until it is over. An exploration that is not cut
short traverses all of them: the traversals end with the events of exactly the complete walks. What it
records of a traversal is settled early, however, where a fork leaves only a state that is not the last
one. The recorded paths are those of the complete walks exactly if no trace is lost or made up that way.
-/

namespace LockAudit.Walk

/-- A walk from the root with free choices is over in the state `t`. -/
def Completes (g : CallGraph) (options : Options) (root : Name) (t : State) : Prop :=
  ∃ s, Reaches g options root s ∧ Ends g options s t

/-- The paths have the events of exactly the complete walks with an acquisition. -/
def Enumerates (g : CallGraph) (options : Options) (root : Name) (paths : List LockPath) : Prop :=
  ∀ events, (∃ p ∈ paths, p.events.map Event.canonical = events) ↔
    ∃ t, Completes g options root t ∧ t.events.any Event.isAcquire = true ∧
      t.events.map Event.canonical = events

/-! ### Traversals -/

/-- A traversal that was brought to its end: the trace that was recorded of it, and the trace of the state
in which it was over. -/
structure Traversal where
  recorded : Trace
  final : Trace
  deriving Repr, DecidableEq, Inhabited

def ended? (g : CallGraph) (options : Options) (fuel : Nat) (seen : Seen) (s : State) (a : Advanced) :
    Option Traversal :=
  match a.outcome, finalState? g options fuel seen s with
  | .finished trace, some t => some { recorded := trace, final := t.trace }
  | _, _ => none

def traversals (g : CallGraph) (options : Options) (root : Name) : Nat → Progress → List Traversal
  | 0, _ => []
  | fuel + 1, p =>
    match p.work with
    | [] => []
    | s :: rest =>
      if p.isFull options then []
      else
        match advance g options fuel p.seen p.log none s with
        | .error _ => []
        | .ok a =>
          match { p with work := rest, started := p.started + 1 }.absorb root a with
          | .error _ => []
          | .ok q => (ended? g options fuel p.seen s a).toList ++ traversals g options root fuel q

theorem traversals_cons {g : CallGraph} {options : Options} {root : Name} {fuel : Nat}
    {p q : Progress} {s : State} {rest : List State} {a : Advanced} (hw : p.work = s :: rest)
    (hfull : p.isFull options = false) (ha : advance g options fuel p.seen p.log none s = .ok a)
    (hq : { p with work := rest, started := p.started + 1 }.absorb root a = .ok q) :
    traversals g options root (fuel + 1) p =
      (ended? g options fuel p.seen s a).toList ++ traversals g options root fuel q := by
  simp [traversals, hw, hfull, ha, hq]

/-- An advance has a final state exactly if it does not fork. -/
theorem advance_final {g : CallGraph} {options : Options} {fuel : Nat} {seen : Seen}
    {log : List LogRecord} {settled : Option Trace} {s : State} {a : Advanced}
    (h : advance g options fuel seen log settled s = .ok a) :
    (∃ trace t, a.outcome = .finished trace ∧ finalState? g options fuel seen s = some t) ∨
      ∃ states, a.outcome = .forked states ∧ finalState? g options fuel seen s = none := by
  induction fuel generalizing seen log settled s with
  | zero => cases h
  | succ fuel ih =>
    obtain ⟨t, ht, ho, _⟩ | ⟨t, _, ht, h⟩ | ⟨t, children, seen', sifted, ht, hne, hsift, h⟩ :=
      advance_cases h
    · exact .inl ⟨_, t, ho, finalState?_of_ends ht fuel seen⟩
    · have hfinal : finalState? g options (fuel + 1) seen s = finalState? g options fuel seen t := by
        simp only [finalState?, ht]
      rw [hfinal]
      exact ih h
    · obtain ⟨only, _, ho, h⟩ | ⟨hno, ho, _⟩ := h
      · rw [finalState?_lone ht hne hsift ho]
        exact ih h
      · exact .inr ⟨_, ho, finalState?_fork ht hne hsift hno⟩

/-- A traversal that comes to its end is a complete walk. -/
theorem finalState?_completes {g : CallGraph} {options : Options} {root : Name} {fuel : Nat}
    {seen : Seen} {s t : State} (h : finalState? g options fuel seen s = some t)
    (hs : Reaches g options root s) : Completes g options root t := by
  induction fuel generalizing seen s with
  | zero => cases h
  | succ fuel ih =>
    unfold finalState? at h
    split at h
    · cases h
    · rename_i u hstep
      cases h
      exact ⟨s, hs, .inl hstep⟩
    · rename_i u hstep
      exact ih h (hs.tail (.returned hstep))
    · rename_i u hstep
      cases h
      exact ⟨s, hs, .inr hstep⟩
    · rename_i u children _ hstep
      split at h
      · cases h
      · rename_i seen' sifted hsift
        split at h
        · rename_i only ho
          have hm := (sift_sifted hsift).mem only (ho ▸ List.mem_cons_self)
          exact ih h (hs.tail (.onward hstep hm))
        · cases h

/-- An advance that ends brings one traversal to its end, and one that forks brings none. -/
theorem advance_ended {g : CallGraph} {options : Options} {fuel : Nat} {seen : Seen}
    {log : List LogRecord} {settled : Option Trace} {s : State} {a : Advanced}
    (h : advance g options fuel seen log settled s = .ok a) :
    (∃ trace t, a.outcome = .finished trace ∧ finalState? g options fuel seen s = some t ∧
      ended? g options fuel seen s a = some { recorded := trace, final := t.trace }) ∨
    ∃ states, a.outcome = .forked states ∧ finalState? g options fuel seen s = none ∧
      ended? g options fuel seen s a = none := by
  obtain ⟨trace, t, ho, hf⟩ | ⟨states, ho, hf⟩ := advance_final h
  · exact .inl ⟨trace, t, ho, hf, by simp only [ended?, ho, hf]⟩
  · exact .inr ⟨states, ho, hf, by simp only [ended?, ho, hf]⟩

/-! ### What is recorded -/

def Indexed (p : Progress) : Prop :=
  ∀ events, p.known.contains events = true ↔ ∃ q ∈ p.paths, q.events.map Event.canonical = events

theorem Kept.indexed {root : Name} {t : Trace} {p q : Progress} (h : Kept root t p q)
    (hp : Indexed p) : Indexed q ∧ ∀ events,
      (∃ r ∈ q.paths, r.events.map Event.canonical = events) ↔
        (∃ r ∈ p.paths, r.events.map Event.canonical = events) ∨
          t.events.any Event.isAcquire = true ∧ t.events.map Event.canonical = events := by
  rcases h with ⟨hpaths, hknown, hold⟩ | ⟨ha, hpaths, hknown⟩
  · refine ⟨?_, ?_⟩
    · intro events
      rw [hpaths, hknown]
      exact hp events
    · intro events
      rw [hpaths]
      refine ⟨.inl, ?_⟩
      rintro (h | ⟨ha, rfl⟩)
      · exact h
      · exact (hp _).mp (hold ha)
  · have hpath : ∀ events, (∃ r ∈ q.paths, r.events.map Event.canonical = events) ↔
        t.events.map Event.canonical = events ∨ ∃ r ∈ p.paths, r.events.map Event.canonical = events := by
      intro events
      rw [hpaths, List.exists_mem_cons_iff]
    refine ⟨?_, ?_⟩
    · intro events
      rw [hpath, hknown, FingerprintSet.contains_insert, Bool.or_eq_true, decide_eq_true_eq, hp events,
        eq_comm]
    · intro events
      rw [hpath, or_comm]
      simp [ha]

/-- The recorded paths have the events of the recorded traces with an acquisition. -/
theorem exploreFrom_paths {g : CallGraph} {options : Options} {root : Name} {fuel : Nat}
    {p : Progress} {e : Exploration} (h : exploreFrom g options root fuel p = .ok e)
    (hcut : e.cut = false) (hp : Indexed p) (events : List Event) :
    (∃ q ∈ e.paths, q.events.map Event.canonical = events) ↔
      (∃ q ∈ p.paths, q.events.map Event.canonical = events) ∨
        ∃ t ∈ traversals g options root fuel p, t.recorded.events.any Event.isAcquire = true ∧
          t.recorded.events.map Event.canonical = events := by
  induction fuel generalizing p with
  | zero => cases h
  | succ fuel ih =>
    obtain ⟨he, _, hw⟩ | ⟨s, rest, a, q, hw, hfull, ha, hq, h⟩ := exploreFrom_cases h
    · simp [he, traversals, hw hcut]
    · rw [traversals_cons hw hfull ha hq]
      obtain ⟨_, _, ⟨trace, ho, hk⟩ | ⟨states, ho, hpaths, hknown⟩⟩ := absorb_cases hq
      · obtain ⟨_, t, ho', _, he⟩ | ⟨_, ho', _⟩ := advance_ended ha <;> rw [ho] at ho' <;> cases ho'
        obtain ⟨hindexed, hevents⟩ := hk.indexed hp
        rw [ih h hindexed, hevents, he, or_assoc]
        refine or_congr_right ?_
        simp only [Option.toList_some, List.singleton_append, List.exists_mem_cons_iff]
      · obtain ⟨_, _, ho', _⟩ | ⟨_, ho', _, he⟩ := advance_ended ha <;> rw [ho] at ho' <;> cases ho'
        have hindexed : Indexed q := by
          intro events
          rw [hpaths, hknown]
          exact hp events
        rw [ih h hindexed, hpaths, he]
        rfl

/-! ### What is traversed -/

/-- The state of an exploration between advances: what was processed leads to a final trace or on to a
key that is known, and each key that is known is that of a state that was processed or is still to be. -/
structure Explored (g : CallGraph) (options : Options) (root : Name) (seen : Seen) (work : List State)
    (finals : Trace → Prop) (processed : State → Prop) : Prop where
  start : processed (.start root) ∨ State.start root ∈ work
  reaches : ∀ x, processed x ∨ x ∈ work → Reaches g options root x
  closed : Closed g options processed (fun k => seen.contains k = true) finals
  known : ∀ k, seen.contains k = true → ∃ c, c.key = k ∧ (processed c ∨ c ∈ work)

theorem explored_start (g : CallGraph) (options : Options) (root : Name) :
    Explored g options root (Progress.start root).seen (Progress.start root).work (fun _ => False)
      (fun _ => False) := by
  refine ⟨.inr List.mem_cons_self, ?_, closed_none .., ?_⟩
  · rintro x (hx | hx)
    · exact hx.elim
    · exact reaches_of_mem_start hx
  · intro k hk
    simp [Progress.start] at hk

theorem Explored.mono {g : CallGraph} {options : Options} {root : Name} {seen : Seen}
    {work : List State} {finals finals' : Trace → Prop} {processed : State → Prop}
    (h : Explored g options root seen work finals processed) (hf : ∀ t, finals t → finals' t) :
    Explored g options root seen work finals' processed :=
  ⟨h.start, h.reaches, h.closed.mono (fun _ => id) hf, h.known⟩

/-- What an advance processes joins what was processed before, and the states that it leaves take its place.
-/
theorem Explored.advance {g : CallGraph} {options : Options} {root : Name} {seen : Seen} {s : State}
    {rest : List State} {a : Advanced} {finals finals' : Trace → Prop} {processed processed' : State → Prop}
    (h : Explored g options root seen (s :: rest) finals processed)
    (ha : Processes g options root seen s a finals' processed')
    (hstates : ∀ c ∈ a.outcome.states, Reaches g options root c) :
    Explored g options root a.seen (a.outcome.states ++ rest) (fun t => finals t ∨ finals' t)
      (fun x => processed x ∨ processed' x) := by
  constructor
  · rcases h.start with hs | hs
    · exact .inl (.inl hs)
    · rcases List.mem_cons.mp hs with hs | hs
      · exact .inl (.inr (hs ▸ ha.start))
      · exact .inr (List.mem_append_right _ hs)
  · rintro x ((hx | hx) | hx)
    · exact h.reaches x (.inl hx)
    · exact ha.reaches x hx
    · rcases List.mem_append.mp hx with hx | hx
      · exact hstates x hx
      · exact h.reaches x (.inr (List.mem_cons_of_mem _ hx))
  · exact (h.closed.mono ha.grows fun _ => .inl).union (ha.closed.mono (fun _ => id) fun _ => .inr)
  · intro k hk
    rcases ha.known k hk with hk | ⟨c, hc, hc' | hc'⟩
    · obtain ⟨c, hc, hc' | hc'⟩ := h.known k hk
      · exact ⟨c, hc, .inl (.inl hc')⟩
      · rcases List.mem_cons.mp hc' with rfl | hc'
        · exact ⟨c, hc, .inl (.inr ha.start)⟩
        · exact ⟨c, hc, .inr (List.mem_append_right _ hc')⟩
    · exact ⟨c, hc, .inl (.inr hc')⟩
    · exact ⟨c, hc, .inr (List.mem_append_left _ hc')⟩

/-- An exploration that is not cut short leaves no state open. -/
theorem exploreFrom_explored {g : CallGraph} {options : Options} {root : Name} {fuel : Nat}
    {p : Progress} {e : Exploration} {finals : Trace → Prop} {processed : State → Prop}
    (h : exploreFrom g options root fuel p = .ok e) (hcut : e.cut = false)
    (hp : Explored g options root p.seen p.work finals processed) :
    ∃ processed', Explored g options root e.seen []
      (fun trace => finals trace ∨ ∃ t ∈ traversals g options root fuel p, t.final = trace) processed' := by
  induction fuel generalizing p finals processed with
  | zero => cases h
  | succ fuel ih =>
    obtain ⟨_, hseen, hw⟩ | ⟨s, rest, a, q, hw, hfull, ha, hq, h⟩ := exploreFrom_cases h
    · refine ⟨processed, ?_⟩
      rw [hw hcut, ← hseen] at hp
      simpa [traversals, hw hcut] using hp
    · rw [hw] at hp
      have hs := hp.reaches s (.inr List.mem_cons_self)
      obtain ⟨processed', ha'⟩ := advance_processes ha hs
      have hnext := hp.advance ha' (advance_left ha hs (by simp)).2
      obtain ⟨hseen, hwork, _⟩ := absorb_cases hq
      rw [← hseen, ← hwork] at hnext
      obtain ⟨processed'', hdone⟩ := ih h hnext
      refine ⟨processed'', hdone.mono ?_⟩
      rw [traversals_cons hw hfull ha hq]
      rintro _ ((hf | ⟨t, ht, rfl⟩) | ⟨t, ht, rfl⟩)
      · exact .inl hf
      · obtain ⟨_, u, _, hu, he⟩ | ⟨_, _, hu, _⟩ := advance_ended ha <;> rw [ht] at hu <;> cases hu
        exact .inr ⟨_, List.mem_append_left _ (by rw [he]; exact List.mem_singleton_self _), rfl⟩
      · exact .inr ⟨t, List.mem_append_right _ ht, rfl⟩

/-- Once no work is left, every state that a walk reaches is like one that was processed. -/
theorem Explored.covers {g : CallGraph} {options : Options} {root : Name} {seen : Seen}
    {finals : Trace → Prop} {processed : State → Prop}
    (h : Explored g options root seen [] finals processed) {s : State} (hs : Reaches g options root s) :
    ∃ x, processed x ∧ Alike x s := by
  induction hs with
  | refl =>
    rcases h.start with hx | hx
    · exact ⟨_, hx, .refl _⟩
    · cases hx
  | tail hr hf ih =>
    obtain ⟨x, hx, hxs⟩ := ih
    obtain ⟨n, hn⟩ := h.closed.steps x hx
    have hc := hr.tail hf
    cases hf with
    | returned hstep =>
      cases hxs.step hn hstep with
      | returned hu => exact ⟨_, h.closed.returned x _ hx hn, hu⟩
    | onward hstep hmem =>
      cases hxs.step hn hstep with
      | onward _ hchildren =>
        -- The child that is like the next state need not have been processed itself, but a state with
        -- its key was.
        obtain ⟨c, hcm, hcs⟩ := forall₂_exists_left hchildren hmem
        obtain ⟨r, hrk, hr' | hr'⟩ := h.known _ (h.closed.onward x _ _ hx hn c hcm)
        · exact ⟨r, hr', alike_of_key (h.reaches r (.inl hr')).reachable (Reaches.reachable hc)
            (hrk.trans (alike_iff.mp hcs).1)⟩
        · cases hr'

def Trace.mark (t : Trace) : List Event × Bool :=
  (t.events.map Event.canonical, t.degraded)

theorem Alike.mark {s t : State} (h : Alike s t) : s.trace.mark = t.trace.mark :=
  Prod.ext h.events h.degraded

theorem Explored.complete {g : CallGraph} {options : Options} {root : Name} {seen : Seen}
    {finals : Trace → Prop} {processed : State → Prop}
    (h : Explored g options root seen [] finals processed) {t : State} (ht : Completes g options root t) :
    ∃ trace, finals trace ∧ trace.mark = t.trace.mark := by
  obtain ⟨s, hs, hends⟩ := ht
  obtain ⟨x, hx, hxs⟩ := h.covers hs
  obtain ⟨n, hn⟩ := h.closed.steps x hx
  rcases hends with hstep | hstep
  · obtain ⟨hu⟩ := hxs.step hn hstep
    exact ⟨_, h.closed.ends x _ hx (.inl hn), hu.mark⟩
  · cases hxs.step hn hstep with
    | onward hu hchildren =>
      cases hchildren
      exact ⟨_, h.closed.ends x _ hx (.inr hn), hu.mark⟩

/-- The final trace of each traversal is that of a complete walk. -/
theorem traversals_complete {g : CallGraph} {options : Options} {root : Name} {fuel : Nat}
    {p : Progress} {e : Exploration} (h : exploreFrom g options root fuel p = .ok e)
    (hcut : e.cut = false) (hw : ∀ s ∈ p.work, Reaches g options root s) :
    ∀ t ∈ traversals g options root fuel p, ∃ u, Completes g options root u ∧ u.trace = t.final := by
  induction fuel generalizing p with
  | zero => cases h
  | succ fuel ih =>
    obtain ⟨_, _, hwork⟩ | ⟨s, rest, a, q, hwork, hfull, ha, hq, h⟩ := exploreFrom_cases h
    · simp [traversals, hwork hcut]
    · rw [hwork] at hw
      obtain ⟨hs, hrest⟩ := List.forall_mem_cons.mp hw
      have hstates := (advance_left ha hs (by simp)).2
      obtain ⟨_, hw', _⟩ := absorb_cases hq
      rw [traversals_cons hwork hfull ha hq]
      refine List.forall_mem_append.mpr ⟨?_, ih h (hw' ▸ List.forall_mem_append.mpr ⟨hstates, hrest⟩)⟩
      obtain ⟨trace, u, _, hu, he⟩ | ⟨_, _, _, he⟩ := advance_ended ha
      · rw [he]
        intro t ht
        obtain rfl := List.mem_singleton.mp ht
        exact ⟨u, finalState?_completes hu hs, rfl⟩
      · simp [he]

/-! ### All paths of a root -/

/-- Where the first step fails, a walk stays at the entry of its root. -/
theorem Reaches.eq_start {g : CallGraph} {options : Options} {root : Name} {fault : Fault} {s : State}
    (hs : Reaches g options root s) (h : (State.start root).step g options = .error fault) :
    s = .start root := by
  rcases Relation.ReflTransGen.cases_head hs with hs | ⟨c, hc, _⟩
  · exact hs.symm
  · cases hc with
    | returned hstep => rw [h] at hstep; cases hstep
    | onward hstep _ => rw [h] at hstep; cases hstep

theorem not_completes_of_step {g : CallGraph} {options : Options} {root : Name} {fault : Fault}
    (h : (State.start root).step g options = .error fault) (t : State) : ¬Completes g options root t := by
  rintro ⟨s, hs, hends⟩
  obtain rfl := hs.eq_start h
  rcases hends with hstep | hstep <;> rw [h] at hstep <;> cases hstep

theorem traversals_of_step {g : CallGraph} {options : Options} {root : Name} {fault : Fault}
    (h : (State.start root).step g options = .error fault) (fuel : Nat) :
    traversals g options root fuel (.start root) = [] := by
  cases fuel with
  | zero => rfl
  | succ fuel =>
    have ha : ∃ e, advance g options fuel .empty [] none (.start root) = .error e := by
      cases fuel with
      | zero => exact ⟨_, rfl⟩
      | succ fuel => exact ⟨fault, by simp [advance, h]⟩
    obtain ⟨e, he⟩ := ha
    simp [traversals, Progress.start, he]

theorem explore_paths {g : CallGraph} {options : Options} {fuel : Nat} {root : Name} {e : Exploration}
    (h : explore g options fuel root = .ok e) (hcut : e.cut = false) (events : List Event) :
    (∃ p ∈ e.paths, p.events.map Event.canonical = events) ↔
      ∃ t ∈ traversals g options root fuel (.start root),
        t.recorded.events.any Event.isAcquire = true ∧ t.recorded.events.map Event.canonical = events := by
  rcases explore_cases h with h | ⟨hpaths, _, hstep⟩
  · have hindexed : Indexed (.start root) := by
      intro events
      simp [Progress.start]
    rw [exploreFrom_paths h hcut hindexed]
    simp [Progress.start]
  · simp [hpaths, traversals_of_step hstep]

theorem any_isAcquire_congr {xs ys : List Event} (h : xs.map Event.canonical = ys.map Event.canonical) :
    xs.any Event.isAcquire = ys.any Event.isAcquire := by
  have hany : ∀ es : List Event, (es.map Event.canonical).any Event.isAcquire = es.any Event.isAcquire := by
    intro es
    rw [List.any_map]
    rfl
  rw [← hany, h, hany]

/-- The traversals of an exploration that is not cut short end like the complete walks. -/
theorem explore_finals {g : CallGraph} {options : Options} {fuel : Nat} {root : Name}
    {e : Exploration} (h : explore g options fuel root = .ok e) (hcut : e.cut = false)
    (mark : List Event × Bool) :
    (∃ t, Completes g options root t ∧ t.trace.mark = mark) ↔
      ∃ t ∈ traversals g options root fuel (.start root), t.final.mark = mark := by
  rcases explore_cases h with h | ⟨_, _, hstep⟩
  · constructor
    · rintro ⟨t, ht, rfl⟩
      obtain ⟨_, hexplored⟩ := exploreFrom_explored h hcut (explored_start g options root)
      obtain ⟨_, hf, he⟩ := hexplored.complete ht
      rcases hf with hf | ⟨u, hu, rfl⟩
      · exact hf.elim
      · exact ⟨u, hu, he⟩
    · rintro ⟨t, ht, rfl⟩
      obtain ⟨u, hu, hf⟩ := traversals_complete h hcut (fun _ => reaches_of_mem_start) t ht
      exact ⟨u, hu, by rw [hf]⟩
  · rw [traversals_of_step hstep]
    constructor
    · rintro ⟨t, ht, _⟩
      exact absurd ht (not_completes_of_step hstep t)
    · rintro ⟨t, ht, _⟩
      cases ht

theorem explore_completes {g : CallGraph} {options : Options} {fuel : Nat} {root : Name}
    {e : Exploration} (h : explore g options fuel root = .ok e) (hcut : e.cut = false)
    (events : List Event) :
    (∃ t, Completes g options root t ∧ t.events.any Event.isAcquire = true ∧
      t.events.map Event.canonical = events) ↔
      ∃ t ∈ traversals g options root fuel (.start root),
        t.final.events.any Event.isAcquire = true ∧ t.final.events.map Event.canonical = events := by
  constructor
  · rintro ⟨t, ht, ha, rfl⟩
    obtain ⟨u, hu, hmark⟩ := (explore_finals h hcut _).mp ⟨t, ht, rfl⟩
    have hevents := congrArg Prod.fst hmark
    exact ⟨u, hu, any_isAcquire_congr hevents ▸ ha, hevents⟩
  · rintro ⟨t, ht, ha, rfl⟩
    obtain ⟨u, hu, hmark⟩ := (explore_finals h hcut _).mpr ⟨t, ht, rfl⟩
    have hevents := congrArg Prod.fst hmark
    exact ⟨u, hu, any_isAcquire_congr hevents ▸ ha, hevents⟩

def Faithful (ts : List Traversal) : Prop :=
  ∀ t ∈ ts, t.recorded ≠ t.final →
    (t.recorded.events.any Event.isAcquire = true →
      ∃ u ∈ ts, u.final.events.map Event.canonical = t.recorded.events.map Event.canonical) ∧
    (t.final.events.any Event.isAcquire = true →
      ∃ u ∈ ts, u.recorded.events.map Event.canonical = t.final.events.map Event.canonical)

/-- The exploration of a root that is not cut short traverses exactly the complete walks, and its paths
are what was recorded of the traversals. The paths have the events of the complete walks if and only if
every traversal that was recorded early is made good by others: some traversal ends with what was recorded
of it, and what it ends with was recorded of some traversal. -/
theorem paths_enumerate_iff {g : CallGraph} {options : Options} {fuel : Nat} {root : Name}
    {e : Exploration} (h : explore g options fuel root = .ok e) (hcut : e.cut = false) :
    ∃ paths, pathsFrom g options fuel root = .ok paths ∧
      (∀ events, (∃ t, Completes g options root t ∧ t.events.any Event.isAcquire = true ∧
          t.events.map Event.canonical = events) ↔
        ∃ t ∈ traversals g options root fuel (.start root),
          t.final.events.any Event.isAcquire = true ∧ t.final.events.map Event.canonical = events) ∧
      (∀ events, (∃ p ∈ paths, p.events.map Event.canonical = events) ↔
        ∃ t ∈ traversals g options root fuel (.start root),
          t.recorded.events.any Event.isAcquire = true ∧
            t.recorded.events.map Event.canonical = events) ∧
      (Enumerates g options root paths ↔ Faithful (traversals g options root fuel (.start root))) := by
  have hcompletes := explore_completes h hcut
  have hpaths : ∀ events, (∃ p ∈ LockPath.sorted e.paths, p.events.map Event.canonical = events) ↔
      ∃ t ∈ traversals g options root fuel (.start root),
        t.recorded.events.any Event.isAcquire = true ∧
          t.recorded.events.map Event.canonical = events := by
    simpa only [LockPath.mem_sorted] using explore_paths h hcut
  refine ⟨LockPath.sorted e.paths, by rw [pathsFrom, h]; rfl, hcompletes, hpaths, ?_⟩
  constructor
  · intro henum t ht _
    constructor
    · intro ha
      obtain ⟨u, hu, _, he⟩ := (hcompletes _).mp ((henum _).mp ((hpaths _).mpr ⟨t, ht, ha, rfl⟩))
      exact ⟨u, hu, he⟩
    · intro ha
      obtain ⟨u, hu, _, he⟩ := (hpaths _).mp ((henum _).mpr ((hcompletes _).mpr ⟨t, ht, ha, rfl⟩))
      exact ⟨u, hu, he⟩
  · intro hfaithful events
    rw [hpaths, hcompletes]
    constructor
    · rintro ⟨t, ht, ha, rfl⟩
      by_cases hsame : t.recorded = t.final
      · exact ⟨t, ht, hsame ▸ ha, hsame ▸ rfl⟩
      · obtain ⟨u, hu, he⟩ := (hfaithful t ht hsame).1 ha
        exact ⟨u, hu, any_isAcquire_congr he ▸ ha, he⟩
    · rintro ⟨t, ht, ha, rfl⟩
      by_cases hsame : t.recorded = t.final
      · exact ⟨t, ht, hsame ▸ ha, hsame ▸ rfl⟩
      · obtain ⟨u, hu, he⟩ := (hfaithful t ht hsame).2 ha
        exact ⟨u, hu, any_isAcquire_congr he ▸ ha, he⟩

def jumping (targets : List Target) : CallGraph :=
  let acquire (guard name : String) : Statement :=
    .acquire (.str guard) { site := .static, name := .str name } .mutex .unknown (.bool true)
  .build [
    { id := .str "main", defPath := .str "main", typeArgs := [], signature := .str "", method := .null
      body := some { blocks := [
        { statements := [acquire "a" "A"], terminator := .goto targets },
        { statements := [acquire "b" "B"], terminator := .ret .null .unknown },
        { statements := [], terminator := .ret .null .unknown }] } }]

/-- A jump to either of two blocks, which makes two paths. -/
theorem paths_enumerate_iff_branches :
    ∃ e paths, explore (jumping [.int 1, .int 2]) {} 9 (.str "main") = .ok e ∧ e.cut = false ∧
      e.paths.length = 2 ∧ pathsFrom (jumping [.int 1, .int 2]) {} 9 (.str "main") = .ok paths ∧
      Enumerates (jumping [.int 1, .int 2]) {} (.str "main") paths := by
  have h : (explore (jumping [.int 1, .int 2]) {} 9 (.str "main")).map
      (fun e => (e.cut, e.paths.length)) = .ok (false, 2) := by
    decide +kernel
  have hsame : ∀ t ∈ traversals (jumping [.int 1, .int 2]) {} (.str "main") 9 (.start (.str "main")),
      t.recorded = t.final := by
    decide +kernel
  obtain ⟨e, he, h⟩ := except_map_eq_ok h
  obtain ⟨hcut, hlength⟩ := Prod.mk.inj h
  obtain ⟨paths, hpaths, _, _, hiff⟩ := paths_enumerate_iff he hcut
  exact ⟨e, paths, he, hcut, hlength, hpaths, hiff.mpr fun t ht hne => absurd (hsame t ht) hne⟩

/-- A jump that names its target twice leaves only the first state of the fork, and the path that is
recorded breaks off at the jump. -/
theorem doubled_target_not_enumerated :
    ∃ e paths, explore (jumping [.int 1, .int 1]) {} 9 (.str "main") = .ok e ∧ e.cut = false ∧
      pathsFrom (jumping [.int 1, .int 1]) {} 9 (.str "main") = .ok paths ∧
      paths.map (fun p => p.events.map Event.op) = [[.acquire]] ∧
      ¬Enumerates (jumping [.int 1, .int 1]) {} (.str "main") paths := by
  have h : (explore (jumping [.int 1, .int 1]) {} 9 (.str "main")).map Exploration.cut = .ok false := by
    decide +kernel
  have hp : (pathsFrom (jumping [.int 1, .int 1]) {} 9 (.str "main")).map
      (fun paths => paths.map fun p => p.events.map Event.op) = .ok [[.acquire]] := by
    decide +kernel
  have hfinal : ∃ t ∈ traversals (jumping [.int 1, .int 1]) {} (.str "main") 9 (.start (.str "main")),
      t.final.events.any Event.isAcquire = true ∧ t.final.events.length = 4 := by
    decide +kernel
  obtain ⟨e, he, hcut⟩ := except_map_eq_ok h
  obtain ⟨paths, hpaths, hops⟩ := except_map_eq_ok hp
  refine ⟨e, paths, he, hcut, hpaths, hops, ?_⟩
  intro henum
  obtain ⟨t, ht, ha, hl⟩ := hfinal
  obtain ⟨p, hp, hevents⟩ := (henum _).mpr ((explore_completes he hcut _).mpr ⟨t, ht, ha, rfl⟩)
  have hop : p.events.map Event.op ∈ paths.map fun p => p.events.map Event.op := List.mem_map_of_mem hp
  rw [hops, List.mem_singleton] at hop
  have h4 : p.events.length = 4 := by simpa [hl] using congrArg List.length hevents
  have h1 : p.events.length = 1 := by simpa using congrArg List.length hop
  omega

end LockAudit.Walk
