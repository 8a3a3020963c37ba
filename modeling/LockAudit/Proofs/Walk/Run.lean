import LockAudit.Proofs.Walk.Matching

/-! # Walks that follow the bodies

A walk goes from block to block as the bodies of the program say. Each acquisition among its events was
made at a point of the walk: the events up to it are those of the state that stood before the statement.
-/

namespace LockAudit.Walk

def AtBlock (g : CallGraph) (s : State) (b : Block) : Prop :=
  ∃ frame callers block, s.frames = frame :: callers ∧ frame.block = some block ∧
    blockAt g frame.inst block = .ok b

inductive Follows (g : CallGraph) (options : Options) : State → State → Prop
  | returned {s t : State} (h : s.step g options = .ok (.returned t)) : Follows g options s t
  | onward {s t c : State} {children : List State}
    (h : s.step g options = .ok (.onward t children)) (hc : c ∈ children) : Follows g options s c

/-- The states to which walks from a root lead, each at the beginning of a block or at its end. -/
def Reaches (g : CallGraph) (options : Options) (root : Name) (s : State) : Prop :=
  Relation.ReflTransGen (Follows g options) (.start root) s

def StandsBefore (g : CallGraph) (options : Options) (root : Name) (s : State)
    (statement : Statement) : Prop :=
  ∃ entry b before after, Reaches g options root entry ∧ AtBlock g entry b ∧
    b.statements = before ++ statement :: after ∧ s = entry.run before

def Pauses (g : CallGraph) (options : Options) (root : Name) (t : State) : Prop :=
  ∃ s, Reaches g options root s ∧
    (s.step g options = .ok (.over t) ∨ ∃ children, s.step g options = .ok (.onward t children))

/-! ### What a step can do -/

theorem run_append (s : State) (xs ys : List Statement) : s.run (xs ++ ys) = (s.run xs).run ys :=
  List.foldl_append

theorem finish_cases {g : CallGraph} {options : Options} {s : State} {t : Terminator} {n : Next}
    (h : s.finish g options t = .ok n) :
    (∃ value location, t = .ret value location ∧ n = .returned (s.leave value location)) ∨
    (∃ targets, t = .goto targets ∧ n = .onward s (s.jumps options targets)) ∨
    (∃ c, t = .call c ∧
      n = .onward (s.markCall g c.site) ((s.markCall g c.site).calls g options c)) := by
  cases t with
  | ret value location =>
    cases h
    exact .inl ⟨value, location, rfl, rfl⟩
  | goto targets =>
    simp only [State.finish, State.jump] at h
    split at h
    · cases h
      exact .inr (.inl ⟨targets, rfl, rfl⟩)
    · cases h
  | call c =>
    simp only [State.finish, State.call] at h
    split at h
    · cases h
      exact .inr (.inr ⟨c, rfl, rfl⟩)
    · cases h

/-- A step finds the walk over, or runs the block at which the activation stands. -/
theorem step_cases {g : CallGraph} {options : Options} {s : State} {n : Next}
    (h : s.step g options = .ok n) :
    n = .over s ∨
      ∃ b, AtBlock g s b ∧ (s.run b.statements).finish g options b.terminator = .ok n := by
  unfold State.step at h
  split at h
  · cases h
    exact .inl rfl
  · rename_i frame callers hs
    split at h
    · cases h
      exact .inl rfl
    · rename_i block hb
      split at h
      · cases h
      · rename_i b hat
        exact .inr ⟨b, ⟨frame, callers, block, hs, hb, hat⟩, h⟩

theorem AtBlock.step {g : CallGraph} {s : State} {b : Block} (h : AtBlock g s b) (options : Options) :
    s.step g options = (s.run b.statements).finish g options b.terminator := by
  obtain ⟨frame, callers, block, hs, hb, hat⟩ := h
  simp only [State.step, hs, hb, hat]

theorem step_over {g : CallGraph} {options : Options} {s t : State}
    (h : s.step g options = .ok (.over t)) : t = s := by
  obtain h | ⟨b, _, h⟩ := step_cases h
  · cases h
    rfl
  · obtain ⟨_, _, _, h⟩ | ⟨_, _, h⟩ | ⟨_, _, h⟩ := finish_cases h <;> cases h

theorem step_returned {g : CallGraph} {options : Options} {s t : State}
    (h : s.step g options = .ok (.returned t)) :
    ∃ b value location, AtBlock g s b ∧ b.terminator = .ret value location ∧
      t = (s.run b.statements).leave value location := by
  obtain h | ⟨b, hb, h⟩ := step_cases h
  · cases h
  · obtain ⟨value, location, ht, h⟩ | ⟨_, _, h⟩ | ⟨_, _, h⟩ := finish_cases h <;> cases h
    exact ⟨b, value, location, hb, ht, rfl⟩

theorem step_onward {g : CallGraph} {options : Options} {s t : State} {children : List State}
    (h : s.step g options = .ok (.onward t children)) :
    ∃ b, AtBlock g s b ∧
      ((∃ targets, b.terminator = .goto targets ∧ t = s.run b.statements ∧
        children = t.jumps options targets) ∨
      (∃ c, b.terminator = .call c ∧ t = (s.run b.statements).markCall g c.site ∧
        children = t.calls g options c)) := by
  obtain h | ⟨b, hb, h⟩ := step_cases h
  · cases h
  · obtain ⟨_, _, _, h⟩ | ⟨targets, ht, h⟩ | ⟨c, ht, h⟩ := finish_cases h <;> cases h
    · exact ⟨b, hb, .inl ⟨targets, ht, rfl, rfl⟩⟩
    · exact ⟨b, hb, .inr ⟨c, ht, rfl, rfl⟩⟩

/-! ### Walks are made of steps -/

theorem Follows.reachable {g : CallGraph} {options : Options} {root : Name} {s t : State}
    (h : Follows g options s t) (hs : Reachable g options root s) : Reachable g options root t := by
  cases h with
  | returned h =>
    obtain ⟨b, value, location, _, _, rfl⟩ := step_returned h
    exact (run_reachable hs b.statements).tail (.leave _ value location)
  | onward h hc =>
    obtain ⟨b, _, ⟨targets, _, rfl, rfl⟩ | ⟨c, _, rfl, rfl⟩⟩ := step_onward h
    · exact (run_reachable hs b.statements).tail (.jump hc)
    · exact (run_reachable hs b.statements).tail (.call hc)

theorem Reaches.reachable {g : CallGraph} {options : Options} {root : Name} {s : State}
    (h : Reaches g options root s) : Reachable g options root s := by
  induction h with
  | refl => exact .refl
  | tail _ hf ih => exact hf.reachable ih

theorem StandsBefore.reachable {g : CallGraph} {options : Options} {root : Name} {s : State}
    {statement : Statement} (h : StandsBefore g options root s statement) :
    Reachable g options root s := by
  obtain ⟨entry, b, before, after, hr, _, _, rfl⟩ := h
  exact run_reachable hr.reachable before

theorem Pauses.reachable {g : CallGraph} {options : Options} {root : Name} {t : State}
    (h : Pauses g options root t) : Reachable g options root t := by
  obtain ⟨s, hr, h | ⟨children, h⟩⟩ := h
  · obtain rfl := step_over h
    exact hr.reachable
  · obtain ⟨b, _, ⟨targets, _, rfl, _⟩ | ⟨c, _, rfl, _⟩⟩ := step_onward h
    · exact run_reachable hr.reachable b.statements
    · exact (run_reachable hr.reachable b.statements).tail (.mark _ c.site)

/-! ### Effects without acquisitions -/

def Quiet (s t : State) : Prop :=
  (∃ es, t.events = s.events ++ es ∧ ∀ e ∈ es, e.op = .release) ∧
    (s.degraded = true → t.degraded = true)

theorem Quiet.of_events {s t : State} (he : t.events = s.events)
    (hd : s.degraded = true → t.degraded = true) : Quiet s t :=
  ⟨⟨[], by simp [he]⟩, hd⟩

theorem Quiet.refl (s : State) : Quiet s s :=
  .of_events rfl id

theorem Quiet.trans {s t u : State} (hst : Quiet s t) (htu : Quiet t u) : Quiet s u := by
  obtain ⟨⟨xs, hx, hxr⟩, hxd⟩ := hst
  obtain ⟨⟨ys, hy, hyr⟩, hyd⟩ := htu
  refine ⟨⟨xs ++ ys, by rw [hy, hx, List.append_assoc], ?_⟩, fun h => hyd (hxd h)⟩
  intro e he
  rcases List.mem_append.mp he with he | he
  · exact hxr e he
  · exact hyr e he

theorem quiet_release (s : State) (frame : Frame) (h : Held) (location : Location) :
    Quiet s (s.release frame h location) := by
  unfold State.release
  split
  · exact .refl s
  · rename_i e _
    refine ⟨⟨[s.ending frame e h.index location], rfl, ?_⟩, id⟩
    intro e he
    obtain rfl := List.mem_singleton.mp he
    rfl

theorem quiet_settle (frame : Frame) (caller : Option Frame) (value : Name) (location : Location)
    (s : State) (h : Held) : Quiet s (State.settle frame caller value location s h) := by
  have hdrop : Quiet s (if h.raii.truthy then s.release frame h location else s) := by
    split
    · exact quiet_release s frame h location
    · exact .refl s
  cases caller with
  | none => exact hdrop
  | some c =>
    simp only [State.settle]
    split
    · exact .of_events rfl id
    · exact hdrop

theorem quiet_foldl {f : State → Held → State} (hf : ∀ s h, Quiet s (f s h)) (l : List Held)
    (s : State) : Quiet s (l.foldl f s) := by
  induction l generalizing s with
  | nil => exact .refl s
  | cons h l ih => exact (hf s h).trans (ih (f s h))

theorem quiet_leave (s : State) (value : Name) (location : Location) :
    Quiet s (s.leave value location) := by
  unfold State.leave
  split
  · exact .refl s
  · exact (quiet_foldl (quiet_settle _ _ value location) _ s).trans (.of_events rfl id)

theorem quiet_markCall (g : CallGraph) (s : State) (site : Name) : Quiet s (s.markCall g site) := by
  unfold State.markCall
  split
  · exact .refl s
  · split
    · exact .of_events rfl fun _ => rfl
    · exact .refl s

theorem quiet_enter (s : State) (block : Target) : Quiet s (s.enter block) := by
  unfold State.enter
  split
  · exact .refl s
  · exact .of_events rfl id

theorem quiet_jumps {options : Options} {s t : State} {targets : List Target}
    (h : t ∈ s.jumps options targets) : Quiet s t := by
  obtain ⟨block, _, rfl⟩ := List.mem_map.mp h
  exact quiet_enter s block

theorem quiet_calls {g : CallGraph} {options : Options} {s t : State} {c : Call}
    (h : t ∈ s.calls g options c) : Quiet s t := by
  simp only [State.calls] at h
  split at h
  · exact quiet_jumps h
  · obtain ⟨callee, _, rfl⟩ := List.mem_map.mp h
    unfold State.push
    split
    · exact .refl s
    · exact .of_events rfl id

/-- A statement acquires a guard in the running activation, or nothing. -/
theorem apply_cases (s : State) (statement : Statement) :
    (∃ frame callers guard lock kind location raii, s.frames = frame :: callers ∧
      statement = .acquire guard lock kind location raii ∧
      s.apply statement = s.acquire frame guard lock kind location raii) ∨
    Quiet s (s.apply statement) := by
  cases hs : s.frames with
  | nil =>
    right
    simp only [State.apply, hs]
    exact .refl s
  | cons frame callers =>
    simp only [State.apply, hs]
    cases statement with
    | acquire guard lock kind location raii =>
      exact .inl ⟨frame, callers, guard, lock, kind, location, raii, rfl, rfl, rfl⟩
    | release guard location =>
      right
      dsimp only
      split
      · exact quiet_release s frame _ location
      · exact .of_events rfl fun _ => rfl
    | scopeExit locals location =>
      exact .inr (quiet_foldl (fun t h => quiet_release t frame h location) _ s)

/-! ### Where acquisitions come from -/

/-- Each acquisition among the events of `t` was made where a walk stood right before it, in a state with
the events up to it. That state was degraded only if `t` is. -/
def Enacted (g : CallGraph) (options : Options) (root : Name) (t : State) : Prop :=
  ∀ (j : Nat) (e : Event), t.events[j]? = some e → e.op = .acquire →
    ∃ s frame callers guard lock kind location raii,
      StandsBefore g options root s (.acquire guard lock kind location raii) ∧
      s.frames = frame :: callers ∧ s.events = t.events.take j ∧
      e = s.acquisition frame guard lock kind location ∧
      (s.degraded = true → t.degraded = true)

theorem Enacted.quiet {g : CallGraph} {options : Options} {root : Name} {t u : State}
    (ht : Enacted g options root t) (hq : Quiet t u) : Enacted g options root u := by
  obtain ⟨⟨es, hu, hr⟩, hd⟩ := hq
  intro j e he ho
  rw [hu] at he ⊢
  rcases Nat.lt_or_ge j t.events.length with hj | hj
  · rw [List.getElem?_append_left hj] at he
    obtain ⟨s, frame, callers, guard, lock, kind, location, raii, hb, hs, hev, heq, hsd⟩ := ht j e he ho
    refine ⟨s, frame, callers, guard, lock, kind, location, raii, hb, hs, ?_, heq, hd ∘ hsd⟩
    rw [hev, List.take_append_of_le_length (Nat.le_of_lt hj)]
  · rw [List.getElem?_append_right hj] at he
    have hrel := hr e (List.mem_of_getElem? he)
    simp [ho] at hrel

theorem Enacted.acquire {g : CallGraph} {options : Options} {root : Name} {s : State} {frame : Frame}
    {callers : List Frame} {guard : Name} {lock : Lock} {kind : GuardKind} {location : Location}
    {raii : Json} (hs : Enacted g options root s) (hf : s.frames = frame :: callers)
    (hb : StandsBefore g options root s (.acquire guard lock kind location raii)) :
    Enacted g options root (s.acquire frame guard lock kind location raii) := by
  intro j e he ho
  rcases getElem?_concat_eq_some_iff.mp he with he | ⟨rfl, rfl⟩
  · have hj := (List.getElem?_eq_some_iff.mp he).1
    obtain ⟨t, f, cs, gu, lo, ki, loc, ra, htb, htf, hev, heq, htd⟩ := hs j e he ho
    refine ⟨t, f, cs, gu, lo, ki, loc, ra, htb, htf, ?_, heq, htd⟩
    rw [hev]
    exact (List.take_append_of_le_length (Nat.le_of_lt hj)).symm
  · refine ⟨s, frame, callers, guard, lock, kind, location, raii, hb, hf, ?_, rfl, id⟩
    exact (List.take_left ..).symm

/-- Along the statements of a block, every acquisition is made where the walk stands. -/
theorem enacted_run {g : CallGraph} {options : Options} {root : Name} {entry : State} {b : Block}
    (hr : Reaches g options root entry) (hb : AtBlock g entry b) (he : Enacted g options root entry)
    (before after : List Statement) (hs : b.statements = before ++ after) :
    Enacted g options root (entry.run before) := by
  induction before using List.reverseRecOn generalizing after with
  | nil => exact he
  | append_singleton before st ih =>
    have hsplit : b.statements = before ++ st :: after := by simpa using hs
    have hbefore := ih (st :: after) hsplit
    rw [run_append]
    change Enacted g options root ((entry.run before).apply st)
    obtain ⟨frame, callers, guard, lock, kind, location, raii, hf, rfl, ha⟩ | hq :=
      apply_cases (entry.run before) st
    · rw [ha]
      exact hbefore.acquire hf ⟨entry, b, before, after, hr, hb, hsplit, rfl⟩
    · exact hbefore.quiet hq

theorem enacted_statements {g : CallGraph} {options : Options} {root : Name} {entry : State}
    {b : Block} (hr : Reaches g options root entry) (hb : AtBlock g entry b)
    (he : Enacted g options root entry) : Enacted g options root (entry.run b.statements) :=
  enacted_run hr hb he b.statements [] (by simp)

theorem Reaches.enacted {g : CallGraph} {options : Options} {root : Name} {s : State}
    (h : Reaches g options root s) : Enacted g options root s := by
  induction h with
  | refl =>
    intro j e he
    simp [State.start] at he
  | tail hr hf ih =>
    cases hf with
    | returned h =>
      obtain ⟨b, value, location, hb, _, rfl⟩ := step_returned h
      exact (enacted_statements hr hb ih).quiet (quiet_leave _ value location)
    | onward h hc =>
      obtain ⟨b, hb, ⟨targets, _, rfl, rfl⟩ | ⟨c, _, rfl, rfl⟩⟩ := step_onward h
      · exact (enacted_statements hr hb ih).quiet (quiet_jumps hc)
      · exact (enacted_statements hr hb ih).quiet ((quiet_markCall g _ c.site).trans (quiet_calls hc))

theorem Pauses.enacted {g : CallGraph} {options : Options} {root : Name} {t : State}
    (h : Pauses g options root t) : Enacted g options root t := by
  obtain ⟨s, hr, h | ⟨children, h⟩⟩ := h
  · obtain rfl := step_over h
    exact hr.enacted
  · obtain ⟨b, hb, ⟨targets, _, rfl, _⟩ | ⟨c, _, rfl, _⟩⟩ := step_onward h
    · exact enacted_statements hr hb hr.enacted
    · exact (enacted_statements hr hb hr.enacted).quiet (quiet_markCall g _ c.site)

end LockAudit.Walk
