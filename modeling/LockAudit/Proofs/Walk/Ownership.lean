import LockAudit.Proofs.Walk.Activations

/-! # Who owns a guard

An RAII guard is owned by an activation on the call stack. The owner is the activation that acquired it, or,
after returns, one that called it directly or indirectly. Nothing but the owner ends the guard, and none is
left when the root has returned.
-/

namespace LockAudit.Walk

variable {g : CallGraph} {options : Options}

/-! ### What a step does to guards -/

def RunsOwner (s : State) (h : Held) : Prop :=
  ∃ a below, s.activations = a :: below ∧ a.number = h.frame

inductive Handled (s t : State) (k : Held) : Prop
  | kept (hk : k ∈ s.held) (hs : s.activations <:+ t.activations)
  /-- The running activation has ended, but it did not own the guard. -/
  | spared (hk : k ∈ s.held) (hs : t.activations = s.activations.tail)
    (hn : k.raii.truthy = true → ¬RunsOwner s k)
  | acquired (hr : RunsOwner s k) (hi : k.index = s.events.length) (hs : t.activations = s.activations)
    {e : Event} (he : t.events[k.index]? = some e) (hc : e.chain = s.chain)
  | returned {h : Held} (hh : h ∈ s.held) (hr : RunsOwner s h) (hi : k.index = h.index)
    (hk : k.raii = h.raii) (hs : t.activations = s.activations.tail) (ht : RunsOwner t k)

/-- What a step does to guards: each comes from those before, and a release ends one of them, an RAII guard
only if its owner runs. -/
structure Treats (s t : State) : Prop where
  held : ∀ k ∈ t.held, Handled s t k
  ended : ∃ es, t.events = s.events ++ es ∧ ∀ e ∈ es, e.op = .release →
    ∃ h ∈ s.held, e.acquired = some (Int.ofNat h.index) ∧ (h.raii.truthy = true → RunsOwner s h)

theorem Treats.of_eq {s t : State} (hh : t.held = s.held) (he : t.events = s.events)
    (hs : s.activations <:+ t.activations) : Treats s t :=
  ⟨fun _ hk => .kept (hh ▸ hk) hs, [], by simp [he], by simp⟩

theorem Treats.refl (s : State) : Treats s s :=
  .of_eq rfl rfl (List.suffix_refl _)

theorem ended_closing {s : State} {frame : Frame} {location : Location} {l : List Held}
    (hl : ∀ h ∈ l, h ∈ s.held ∧ (h.raii.truthy = true → RunsOwner s h)) :
    ∀ e ∈ l.filterMap (s.closing frame location), e.op = .release →
      ∃ h ∈ s.held, e.acquired = some (Int.ofNat h.index) ∧ (h.raii.truthy = true → RunsOwner s h) := by
  intro e he _
  obtain ⟨h, hh, he⟩ := List.mem_filterMap.mp he
  obtain ⟨a, _, rfl⟩ := Option.map_eq_some_iff.mp he
  exact ⟨h, (hl h hh).1, rfl, (hl h hh).2⟩

theorem runsOwner_iff {s : State} {frame : Frame} {callers : List Frame} (hs : s.frames = frame :: callers)
    {h : Held} : RunsOwner s h ↔ h.frame = frame.number := by
  constructor
  · rintro ⟨a, below, ha, hn⟩
    rw [activations_cons hs] at ha
    cases ha
    exact hn.symm
  · intro hn
    exact ⟨_, _, activations_cons hs, hn.symm⟩

/-- A release ends a guard of the running activation, or a manual one. -/
theorem findHeld_owner {s : State} {frame : Nat} {guard : Name} {h : Held}
    (hf : s.findHeld frame guard = some h) (hraii : h.raii.truthy = true) : h.frame = frame := by
  unfold State.findHeld at hf
  split at hf
  · rename_i k hk
    cases hf
    have hp := List.find?_some hk
    simp only [Bool.and_eq_true, beq_iff_eq] at hp
    exact hp.1
  · have hp := List.find?_some hf
    simp [hraii] at hp

theorem apply_treats {s : State} (ht : Tracked s) (statement : Statement) :
    Treats s (s.apply statement) := by
  cases hs : s.frames with
  | nil =>
    simp only [State.apply, hs]
    exact .refl s
  | cons frame callers =>
    cases statement with
    | acquire guard lock kind location raii =>
      simp only [State.apply, hs]
      refine ⟨?_, [s.acquisition frame guard lock kind location], rfl, ?_⟩
      · intro k hk
        rcases List.mem_append.mp hk with hk | hk
        · exact .kept hk (List.suffix_refl _)
        · obtain rfl := List.mem_singleton.mp hk
          refine .acquired ((runsOwner_iff hs).mpr rfl) rfl rfl
            (e := s.acquisition frame guard lock kind location) ?_ rfl
          simp [State.acquire]
      · intro e he ho
        obtain rfl := List.mem_singleton.mp he
        cases ho
    | release guard location =>
      simp only [State.apply, hs]
      split
      · rename_i h hh
        have hmem := findHeld_mem hh
        rw [release_eq (ht.index_lt hmem)]
        refine ⟨?_, _, rfl, ended_closing ?_⟩
        · intro k hk
          exact .kept (List.mem_of_mem_eraseP hk) (List.suffix_refl _)
        · intro k hk
          obtain rfl := List.mem_singleton.mp hk
          exact ⟨hmem, fun hraii => (runsOwner_iff hs).mpr (findHeld_owner hh hraii)⟩
      · exact .of_eq rfl rfl (by simp [State.activations, hs])
    | scopeExit locals location =>
      rw [apply_scopeExit ht hs]
      refine ⟨?_, _, rfl, ended_closing ?_⟩
      · intro k hk
        exact .kept (List.mem_filter.mp hk).1 (List.suffix_refl _)
      · intro k hk
        obtain ⟨hk, hp⟩ := List.mem_filter.mp hk
        simp only [Bool.and_eq_true, beq_iff_eq] at hp
        exact ⟨List.mem_reverse.mp hk, fun _ => (runsOwner_iff hs).mpr hp.1.2⟩

theorem leave_treats {s : State} (ht : Tracked s) (value : Name) (location : Location) :
    Treats s (s.leave value location) := by
  cases hs : s.frames with
  | nil =>
    simp only [State.leave, hs]
    exact .refl s
  | cons frame callers =>
    rw [leave_eq ht hs]
    refine ⟨?_, _, rfl, ended_closing ?_⟩
    · intro k hk
      have htail : callers.map Frame.activation = s.activations.tail := by
        rw [activations_cons hs, List.tail_cons]
      obtain ⟨h, hh, hk⟩ := List.mem_filterMap.mp hk
      by_cases hf : h.frame = frame.number
      · rw [if_pos (beq_iff_eq.mpr hf)] at hk
        rcases settled_eq_some hk with ⟨c, hc, rfl⟩ | ⟨rfl, hraii⟩
        · obtain ⟨rest, rfl⟩ := List.head?_eq_some_iff.mp hc
          exact .returned hh ((runsOwner_iff hs).mpr hf) rfl rfl htail ((runsOwner_iff rfl).mpr rfl)
        · refine .spared hh htail ?_
          rw [hraii]
          intro hfalse
          cases hfalse
      · rw [if_neg (mt beq_iff_eq.mp hf)] at hk
        cases hk
        exact .spared hh htail fun _ => mt (runsOwner_iff hs).mp hf
    · intro h hh
      obtain ⟨hh, hf⟩ := List.mem_filter.mp (List.mem_filter.mp hh).1
      exact ⟨List.mem_reverse.mp hh, fun _ => (runsOwner_iff hs).mpr (beq_iff_eq.mp hf)⟩

/-- Jumps and calls leave guards and events alone, and nothing ends. -/
theorem jumps_keep {s t : State} {targets : List Target} (h : t ∈ s.jumps options targets) :
    t.held = s.held ∧ t.events = s.events ∧ s.activations <:+ t.activations := by
  obtain ⟨block, _, rfl⟩ := List.mem_map.mp h
  unfold State.enter
  split
  · exact ⟨rfl, rfl, List.suffix_refl _⟩
  · rename_i frame callers hs
    refine ⟨rfl, rfl, ?_⟩
    simp only [State.activations, hs, List.map_cons]
    exact List.suffix_refl _

theorem calls_keep {s t : State} {c : Call} (h : t ∈ s.calls g options c) :
    t.held = s.held ∧ t.events = s.events ∧ s.activations <:+ t.activations := by
  simp only [State.calls] at h
  split at h
  · exact jumps_keep h
  · obtain ⟨callee, _, rfl⟩ := List.mem_map.mp h
    unfold State.push
    split
    · exact ⟨rfl, rfl, List.suffix_refl _⟩
    · rename_i frame callers hs
      refine ⟨rfl, rfl, ?_⟩
      simp only [State.activations, hs, List.map_cons]
      exact List.suffix_cons _ _

/-- No step ends an RAII guard while another activation than its owner runs. -/
theorem Step.treats {s t : State} (h : Step g options s t) (ht : Tracked s) : Treats s t := by
  cases h with
  | apply statement => exact apply_treats ht statement
  | leave value location => exact leave_treats ht value location
  | jump h =>
    obtain ⟨hheld, hevents, hacts⟩ := jumps_keep h
    exact .of_eq hheld hevents hacts
  | mark site =>
    obtain ⟨degraded, hm⟩ := markCall_degraded g s site
    rw [hm]
    exact .of_eq rfl rfl (List.suffix_refl _)
  | call h =>
    obtain ⟨hheld, hevents, hacts⟩ := calls_keep h
    rename_i c
    obtain ⟨degraded, hm⟩ := markCall_degraded g s c.site
    rw [hm] at hheld hevents hacts
    exact .of_eq hheld hevents hacts

/-! ### Owners -/

/-- Every RAII guard is owned by an activation on the stack, and the calls that led to the owner are the
first of those that led to the acquisition. -/
def Owned (s : State) : Prop :=
  ∀ h ∈ s.held, h.raii.truthy = true → ∃ a below e, a :: below <:+ s.activations ∧ a.number = h.frame ∧
    s.events[h.index]? = some e ∧ chainOf (a :: below) <+: e.chain

def Apart (as : List Activation) : Prop :=
  ∀ a below b above, a :: below <:+ as → b :: above <:+ as → a.number = b.number → a :: below = b :: above

theorem Reachable.apart {root : Name} {s : State} (h : Reachable g options root s) :
    Apart s.activations := by
  obtain ⟨stack, hstack⟩ := h.registered
  intro a below b above ha hb hn
  have hsa := (hstack.current a below ha).2
  have hsb := (hstack.current b above hb).2
  rw [← hsa, ← hsb, hn]

theorem events_grow {s t : State} (h : Step g options s t) (ht : Tracked s) : s.events <+: t.events := by
  obtain ⟨_, es, hes, _⟩ := h.progresses ht
  exact ⟨es, hes.symm⟩

theorem getElem?_grown {α : Type} {xs ys : List α} (h : xs <+: ys) {i : Nat} {x : α}
    (hx : xs[i]? = some x) : ys[i]? = some x := by
  obtain ⟨zs, rfl⟩ := h
  rw [List.getElem?_append_left (List.getElem?_eq_some_iff.mp hx).1]
  exact hx

/-- An RAII guard that changes hands goes to the caller, which stays on the stack. -/
theorem Owned.step {s t : State} (ho : Owned s) (hs : Step g options s t) (ht : Tracked s)
    (ha : Apart s.activations) : Owned t := by
  have hgrows := events_grow hs ht
  intro k hk hraii
  cases (hs.treats ht).held k hk with
  | kept hk hsuffix =>
    obtain ⟨a, below, e, hmem, hn, he, hc⟩ := ho k hk hraii
    exact ⟨a, below, e, hmem.trans hsuffix, hn, getElem?_grown hgrows he, hc⟩
  | spared hk hacts hnot =>
    obtain ⟨a, below, e, hmem, hn, he, hc⟩ := ho k hk hraii
    refine ⟨a, below, e, ?_, hn, getElem?_grown hgrows he, hc⟩
    -- the activation that has ended is not the owner, so the owner stands below it
    cases hs : s.activations with
    | nil =>
      rw [hs] at hmem
      cases List.suffix_nil.mp hmem
    | cons top rest =>
      rw [hacts, hs]
      rw [hs] at hmem
      rcases List.suffix_cons_iff.mp hmem with heq | hmem
      · cases heq
        exact absurd ⟨_, _, hs, hn⟩ (hnot hraii)
      · exact hmem
  | acquired hr hi hacts he hc =>
    obtain ⟨a, below, hs, hn⟩ := hr
    have hstack : t.activations = a :: below := hacts.trans hs
    have hchain := hc.trans ((chain_eq s).trans (congrArg chainOf hs))
    exact ⟨a, below, _, by simp [hstack], hn, he, by simp [hchain]⟩
  | returned hh hr hi hraii' hacts hrt =>
    obtain ⟨a, below, hs, hn⟩ := hr
    obtain ⟨c, rest, hstack, hcn⟩ := hrt
    have hbelow : below = c :: rest := by
      rw [← hstack, hacts, hs, List.tail_cons]
    obtain ⟨a', below', e, hmem, hn', he, hc⟩ := ho _ hh (hraii' ▸ hraii)
    have htop : a' :: below' = a :: below := by
      rw [hs] at hmem ha
      exact ha a' below' a below hmem (List.suffix_refl _) (hn'.trans hn.symm)
    refine ⟨c, rest, e, by simp [hstack], hcn, hi ▸ getElem?_grown hgrows he, ?_⟩
    rw [htop, chainOf, List.map_cons, List.reverse_cons, hbelow] at hc
    exact (List.prefix_append _ _).trans hc

theorem Reachable.owned {root : Name} {s : State} (h : Reachable g options root s) : Owned s := by
  induction h with
  | refl =>
    intro h hh
    cases hh
  | tail hr hs ih => exact ih.step hs (Reachable.tracked hr) (Reachable.apart hr)

/-! ### From an acquisition on -/

inductive AcquiresOwned (g : CallGraph) (options : Options) (root : Name) (u : State) : State → Prop
  | mk {frame : Frame} {callers : List Frame} (hu : Reachable g options root u)
    (hs : u.frames = frame :: callers) (guard : Name) (lock : Lock) (kind : GuardKind)
    (location : Location) {raii : Json} (hraii : raii.truthy = true) :
    AcquiresOwned g options root u (u.apply (.acquire guard lock kind location raii))

/-- The event at `i` is logged on the way from `t` to `s`, while the owner of the guard that was acquired at
`j` runs. -/
def LoggedByOwner (g : CallGraph) (options : Options) (t s : State) (j i : Nat) (e : Event) : Prop :=
  ∃ v w h, Relation.ReflTransGen (Step g options) t v ∧ Step g options v w ∧
    Relation.ReflTransGen (Step g options) w s ∧ v.events.length ≤ i ∧ i < w.events.length ∧
    h ∈ v.held ∧ h.index = j ∧ RunsOwner v h ∧ Logged v.activations e

/-- A state on the way from an acquisition: the guard that may still be held is an RAII guard. -/
structure Since (g : CallGraph) (options : Options) (root : Name) (u t s : State) : Prop where
  reachable : Reachable g options root s
  events : t.events <+: s.events
  raii : ∀ h ∈ s.held, h.index = u.events.length → h.raii.truthy = true

section

variable {root : Name} {u t s : State}

theorem AcquiresOwned.event (h : AcquiresOwned g options root u t) :
    ∃ a, t.events = u.events ++ [a] ∧ a.op = .acquire ∧ a.chain = u.chain := by
  obtain ⟨_, hs, guard, lock, kind, location, _⟩ := h
  simp only [State.apply, hs]
  exact ⟨_, rfl, rfl, rfl⟩

theorem AcquiresOwned.since (h : AcquiresOwned g options root u t) : Since g options root u t t := by
  obtain ⟨hu, hs, guard, lock, kind, location, hraii⟩ := h
  refine ⟨hu.tail (.apply u _), List.prefix_refl _, ?_⟩
  simp only [State.apply, hs, State.acquire]
  intro h hh hi
  rcases List.mem_append.mp hh with hh | hh
  · exact absurd (hi ▸ hu.tracked.index_lt hh) (Nat.lt_irrefl _)
  · obtain rfl := List.mem_singleton.mp hh
    exact hraii

theorem Since.step (h : Since g options root u t s) (hlt : u.events.length < t.events.length) {w : State}
    (hw : Step g options s w) : Since g options root u t w := by
  have htracked := h.reachable.tracked
  refine ⟨h.reachable.tail hw, h.events.trans (events_grow hw htracked), ?_⟩
  intro k hk hi
  cases (hw.treats htracked).held k hk with
  | kept hk _ => exact h.raii k hk hi
  | spared hk _ _ => exact h.raii k hk hi
  | acquired _ hnew =>
    have hle := h.events.length_le
    omega
  | returned hh _ hindex hraii =>
    rw [hraii]
    exact h.raii _ hh (hindex ▸ hi)

theorem AcquiresOwned.length_lt (h : AcquiresOwned g options root u t) :
    u.events.length < t.events.length := by
  obtain ⟨a, ha, _⟩ := h.event
  simp [ha]

theorem AcquiresOwned.run (h : AcquiresOwned g options root u t)
    (hs : Relation.ReflTransGen (Step g options) t s) : Since g options root u t s := by
  induction hs with
  | refl => exact h.since
  | tail _ hw ih => exact ih.step h.length_lt hw

/-- The acquisition stays where it is. -/
theorem AcquiresOwned.event_at (h : AcquiresOwned g options root u t)
    (hs : Relation.ReflTransGen (Step g options) t s) :
    ∃ a, s.events[u.events.length]? = some a ∧ a.op = .acquire ∧ a.chain = u.chain := by
  obtain ⟨a, ha, hop, hchain⟩ := h.event
  have hat : t.events[u.events.length]? = some a := by
    rw [ha]
    exact List.getElem?_concat_length
  exact ⟨a, getElem?_grown (h.run hs).events hat, hop, hchain⟩

/-- Before the acquisition nothing ends the guard. -/
theorem AcquiresOwned.no_release (h : AcquiresOwned g options root u t) {i : Nat} {e : Event}
    (he : t.events[i]? = some e) (ho : e.op = .release) :
    e.acquired ≠ some (Int.ofNat u.events.length) := by
  intro hj
  obtain ⟨j, a, hacquired, hji, _⟩ := h.since.reachable.tracked.matched.release i e he ho
  obtain rfl := Int.ofNat.inj (Option.some.inj (hj.symm.trans hacquired))
  obtain ⟨a, ha, hop, _⟩ := h.event
  rw [ha] at he
  rcases getElem?_concat_eq_some_iff.mp he with he | ⟨hi, rfl⟩
  · exact Nat.lt_asymm hji (List.getElem?_eq_some_iff.mp he).1
  · omega

/-- What ends the guard is logged while the owner runs. -/
theorem AcquiresOwned.loggedByOwner (h : AcquiresOwned g options root u t)
    (hs : Relation.ReflTransGen (Step g options) t s) {i : Nat} {e : Event} (he : s.events[i]? = some e)
    (ho : e.op = .release) (hj : e.acquired = some (Int.ofNat u.events.length)) :
    LoggedByOwner g options t s u.events.length i e := by
  induction hs with
  | refl => exact absurd hj (h.no_release he ho)
  | @tail v w hv hw ih =>
    have hsince := h.run hv
    have htracked := hsince.reachable.tracked
    rcases Nat.lt_or_ge i v.events.length with hi | hi
    · obtain ⟨es, hes⟩ := events_grow hw htracked
      rw [← hes, List.getElem?_append_left hi] at he
      obtain ⟨x, y, k, hx, hxy, hy, hrest⟩ := ih he
      exact ⟨x, y, k, hx, hxy, hy.tail hw, hrest⟩
    · -- the event is new in this step: `progresses` tells who logs it and `treats` which guard it ends
      obtain ⟨_, es, hes, hlogged⟩ := hw.progresses htracked
      obtain ⟨_, es', hes', hended⟩ := hw.treats htracked
      obtain rfl := List.append_cancel_left (hes.symm.trans hes')
      have hmem : e ∈ es := by
        rw [hes, List.getElem?_append_right hi] at he
        exact List.mem_of_getElem? he
      obtain ⟨k, hk, hkj, howner⟩ := hended e hmem ho
      have hindex : k.index = u.events.length := Int.ofNat.inj (Option.some.inj (hkj.symm.trans hj))
      exact ⟨v, w, k, hv, hw, .refl, hi, (List.getElem?_eq_some_iff.mp he).1, hk, hindex,
        howner (hsince.raii k hk hindex), hlogged e hmem⟩

/-- The calls that led to the owner are the first of those that led to the acquisition. -/
theorem LoggedByOwner.chain_begins (h : AcquiresOwned g options root u t) {i : Nat} {e : Event}
    (he : LoggedByOwner g options t s u.events.length i e) : e.chain <+: u.chain := by
  obtain ⟨v, w, k, hv, _, _, _, _, hk, hindex, ⟨top, rest, hacts, hn⟩, ⟨_, _, _, _, _, hchain⟩⟩ := he
  have hsince := h.run hv
  obtain ⟨a, hat, _, hachain⟩ := h.event_at hv
  obtain ⟨owner, below, e', hmem, hon, he', hbegins⟩ :=
    hsince.reachable.owned k hk (hsince.raii k hk hindex)
  rw [hindex] at he'
  obtain rfl := Option.some.inj (he'.symm.trans hat)
  rw [hacts] at hmem hchain
  have hapart := hsince.reachable.apart
  rw [hacts] at hapart
  rw [hchain, ← hapart owner below top rest hmem (List.suffix_refl _) (hon.trans hn.symm), ← hachain]
  exact hbegins

/-- Where nothing is left on the stack, something has ended the guard. -/
theorem AcquiresOwned.exists_release (h : AcquiresOwned g options root u t)
    (hs : Relation.ReflTransGen (Step g options) t s) (hempty : s.frames = []) :
    ∃ (i : Nat) (e : Event), s.events[i]? = some e ∧ e.op = .release ∧
      e.acquired = some (Int.ofNat u.events.length) := by
  have hsince := h.run hs
  obtain ⟨a, hat, hop, _⟩ := h.event_at hs
  by_contra hnone
  -- an acquisition that nothing ends is still held, and then its owner would be on the stack
  have hheld : u.events.length ∈ s.held.map Held.index := by
    rw [← hsince.reachable.tracked.replayed]
    refine List.mem_map.mpr ⟨{ index := u.events.length, event := a }, ?_, rfl⟩
    refine (Detection.mem_replay _ _).mpr ⟨hat, hop, ?_⟩
    intro i e _ he ho hj
    exact hnone ⟨i, e, he, ho, hj⟩
  obtain ⟨k, hk, hindex⟩ := List.mem_map.mp hheld
  obtain ⟨owner, below, _, hmem, _⟩ := hsince.reachable.owned k hk (hsince.raii k hk hindex)
  rw [State.activations, hempty] at hmem
  cases List.suffix_nil.mp hmem

end

/-- RAII guards are owned by activations on the stack. A release that ends one is logged while its owner runs,
so at the acquiring activation or at one that called it, and when the root has returned exactly one release
has ended it. -/
theorem raii_guards_owned (g : CallGraph) (options : Options) (root : Name) :
    (∀ s, Reachable g options root s → ∀ h ∈ s.held, h.raii.truthy = true →
      ∃ f ∈ s.frames, f.number = h.frame) ∧
    ∀ u t s, AcquiresOwned g options root u t → Relation.ReflTransGen (Step g options) t s →
      (∃ a, s.events[u.events.length]? = some a ∧ a.op = .acquire ∧
        ∀ (i : Nat) (e : Event), s.events[i]? = some e → e.op = .release →
          e.acquired = some (Int.ofNat u.events.length) →
          LoggedByOwner g options t s u.events.length i e ∧ e.chain <+: a.chain) ∧
      (s.frames = [] → ∃! i : Nat, ∃ e : Event, s.events[i]? = some e ∧ e.op = .release ∧
        e.acquired = some (Int.ofNat u.events.length)) := by
  refine ⟨?_, ?_⟩
  · intro s hs h hh hraii
    obtain ⟨a, below, _, hmem, hn, _⟩ := hs.owned h hh hraii
    obtain ⟨f, hf, rfl⟩ := List.mem_map.mp (hmem.subset List.mem_cons_self)
    exact ⟨f, hf, hn⟩
  · intro u t s hacq hs
    have hsince := hacq.run hs
    refine ⟨?_, ?_⟩
    · obtain ⟨a, hat, hop, hchain⟩ := hacq.event_at hs
      refine ⟨a, hat, hop, ?_⟩
      intro i e he ho hj
      have hlogged := hacq.loggedByOwner hs he ho hj
      exact ⟨hlogged, hchain ▸ hlogged.chain_begins hacq⟩
    · intro hempty
      obtain ⟨i, e, he, ho, hj⟩ := hacq.exists_release hs hempty
      refine ⟨i, ⟨e, he, ho, hj⟩, ?_⟩
      rintro i' ⟨e', he', ho', hj'⟩
      exact hsince.reachable.tracked.matched.once i' i e' e he' he ho' ho (hj'.trans hj.symm)

def opened : State :=
  (State.start (.str "main")).push (.str "open") (some (.int 1)) (.str "g")

theorem opened_reachable : Reachable handover {} (.str "main") opened := by
  let c : Call :=
    { site := .str "s", callee := .str "open", signature := .null, method := .null,
      target := some (.int 1), destination := .str "g", location := .unknown }
  have hcall : opened ∈ ((State.start (.str "main")).markCall handover c.site).calls handover {} c := by
    decide +kernel
  exact .single (.call hcall)

/-- The guard that `open` returns is released once, by `main`. -/
theorem raii_guards_owned_handover :
    ∃ t s, AcquiresOwned handover {} (.str "main") opened t ∧
      Relation.ReflTransGen (Step handover {}) t s ∧ s.frames = [] ∧
      (s.events.map fun e => (e.op, e.chain)) =
        [(.acquire, [.str "main", .str "open"]), (.release, [.str "main"])] ∧
      ∃! i : Nat, ∃ e : Event, s.events[i]? = some e ∧ e.op = .release ∧
        e.acquired = some (Int.ofNat opened.events.length) := by
  let t := opened.apply
    (.acquire (.str "x") { site := .static, name := .str "A" } .mutex .unknown (.bool true))
  let v := t.leave (.str "x") .unknown
  let w := v.apply (.scopeExit [.str "g"] .unknown)
  have ht : AcquiresOwned handover {} (.str "main") opened t := .mk opened_reachable rfl _ _ _ _ rfl
  have hs : Relation.ReflTransGen (Step handover {}) t (w.leave .null .unknown) :=
    ((Relation.ReflTransGen.single (.leave t _ _)).tail (.apply v _)).tail (.leave w _ _)
  have hempty : (w.leave .null .unknown).frames = [] := by decide +kernel
  refine ⟨t, _, ht, hs, hempty, by decide +kernel, ?_⟩
  exact ((raii_guards_owned handover {} (.str "main")).2 opened t _ ht hs).2 hempty

end LockAudit.Walk
