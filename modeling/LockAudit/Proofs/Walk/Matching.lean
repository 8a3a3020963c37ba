import LockAudit.Proofs.Walk.Effect

/-! # Events and guards of a walk agree

In every state of a walk the guards that are held are the holdings that a replay of the events ends with,
and each release among the events ends an earlier acquisition that nothing else ends. The one invariant
behind both is `Tracked`: it is kept by every single effect, and it is also what makes every step a
sequence of single effects.
-/

namespace LockAudit.Walk

open Detection

/-- Each release ends an earlier acquisition of the same guard, and no two releases end the same one. -/
structure Matched (es : List Event) : Prop where
  acquire : ∀ e ∈ es, e.op = .acquire → e.acquired = none
  release : ∀ (i : Nat) (e : Event), es[i]? = some e → e.op = .release →
    ∃ j a, e.acquired = some (Int.ofNat j) ∧ j < i ∧ es[j]? = some a ∧ a.op = .acquire ∧
      e.kind = a.kind ∧ e.lock = a.lock ∧ e.guard = a.guard
  once : ∀ (i j : Nat) (e f : Event), es[i]? = some e → es[j]? = some f → e.op = .release → f.op = .release →
    e.acquired = f.acquired → i = j

theorem matched_nil : Matched [] := by
  constructor <;> simp

theorem Matched.concat_acquire {es : List Event} (hm : Matched es) {e : Event} (ho : e.op = .acquire)
    (ha : e.acquired = none) : Matched (es ++ [e]) := by
  constructor
  · intro f hf hfo
    rcases List.mem_append.mp hf with hf | hf
    · exact hm.acquire f hf hfo
    · obtain rfl := List.mem_singleton.mp hf
      exact ha
  · intro i f hf hfo
    rcases getElem?_concat_eq_some_iff.mp hf with hf | ⟨_, rfl⟩
    · obtain ⟨j, a, hj, hji, hja, hrest⟩ := hm.release i f hf hfo
      exact ⟨j, a, hj, hji, getElem?_concat_eq_some_iff.mpr (.inl hja), hrest⟩
    · simp [ho] at hfo
  · intro i j f k hf hk hfo hko hfk
    rcases getElem?_concat_eq_some_iff.mp hf with hf | ⟨_, rfl⟩
    · rcases getElem?_concat_eq_some_iff.mp hk with hk | ⟨_, rfl⟩
      · exact hm.once i j f k hf hk hfo hko hfk
      · simp [ho] at hko
    · simp [ho] at hfo

/-- What is held has not been released before. -/
theorem Matched.acquired_ne {es : List Event} (hm : Matched es) {j : Nat} (hn : NotReleased es j)
    {i : Nat} {e : Event} (he : es[i]? = some e) (ho : e.op = .release) :
    e.acquired ≠ some (Int.ofNat j) := by
  intro hj
  obtain ⟨k, _, hk, hki, _⟩ := hm.release i e he ho
  rw [hj, Option.some.injEq, Int.ofNat.injEq] at hk
  exact hn i e (hk ▸ hki) he ho hj

theorem Matched.concat_release {es : List Event} (hm : Matched es) {e a : Event} {j : Nat}
    (ho : e.op = .release) (hj : e.acquired = some (Int.ofNat j)) (ha : es[j]? = some a)
    (hao : a.op = .acquire) (hn : NotReleased es j)
    (hsame : e.kind = a.kind ∧ e.lock = a.lock ∧ e.guard = a.guard) : Matched (es ++ [e]) := by
  constructor
  · intro f hf hfo
    rcases List.mem_append.mp hf with hf | hf
    · exact hm.acquire f hf hfo
    · obtain rfl := List.mem_singleton.mp hf
      simp [ho] at hfo
  · intro i f hf hfo
    rcases getElem?_concat_eq_some_iff.mp hf with hf | ⟨rfl, rfl⟩
    · obtain ⟨k, b, hk, hki, hkb, hrest⟩ := hm.release i f hf hfo
      exact ⟨k, b, hk, hki, getElem?_concat_eq_some_iff.mpr (.inl hkb), hrest⟩
    · exact ⟨j, a, hj, (List.getElem?_eq_some_iff.mp ha).1,
        getElem?_concat_eq_some_iff.mpr (.inl ha), hao, hsame⟩
  · intro i k f l hf hl hfo hlo hfl
    rcases getElem?_concat_eq_some_iff.mp hf with hf | ⟨rfl, rfl⟩
    · rcases getElem?_concat_eq_some_iff.mp hl with hl | ⟨rfl, rfl⟩
      · exact hm.once i k f l hf hl hfo hlo hfl
      · exact absurd (hfl.trans hj) (hm.acquired_ne hn hf hfo)
    · rcases getElem?_concat_eq_some_iff.mp hl with hl | ⟨rfl, rfl⟩
      · exact absurd (hfl.symm.trans hj) (hm.acquired_ne hn hl hlo)
      · rfl

/-! ### The invariant -/

structure Tracked (s : State) : Prop where
  matched : Matched s.events
  replayed : (replay s.events).map Holding.index = s.held.map Held.index

theorem Tracked.heldApart {s : State} (ht : Tracked s) : HeldApart s := by
  rw [HeldApart, ← ht.replayed]
  exact replay_nodup s.events

/-- A guard that is held comes from an acquisition that no event releases. -/
theorem Tracked.acquired {s : State} (ht : Tracked s) {h : Held} (hh : h ∈ s.held) :
    ∃ a, s.events[h.index]? = some a ∧ a.op = .acquire ∧ NotReleased s.events h.index := by
  have hi : h.index ∈ (replay s.events).map Holding.index := by
    rw [ht.replayed]
    exact List.mem_map_of_mem hh
  obtain ⟨k, hk, hki⟩ := List.mem_map.mp hi
  obtain ⟨he, ha, hn⟩ := (mem_replay s.events k).mp hk
  rw [hki] at he hn
  exact ⟨k.event, he, ha, hn⟩

theorem tracked_start (root : Name) : Tracked (.start root) :=
  ⟨matched_nil, rfl⟩

theorem Tracked.of_eq {s t : State} (ht : Tracked s) (he : t.events = s.events)
    (hh : t.held.map Held.index = s.held.map Held.index) : Tracked t :=
  ⟨he ▸ ht.matched, by rw [he, hh]; exact ht.replayed⟩

theorem Tracked.acquire {s : State} (ht : Tracked s) (frame : Frame) (guard : Name) (lock : Lock)
    (kind : GuardKind) (location : Location) (raii : Json) :
    Tracked (s.acquire frame guard lock kind location raii) := by
  constructor
  · exact ht.matched.concat_acquire rfl rfl
  · simp only [State.acquire]
    rw [replay_concat_acquire rfl, List.map_append, List.map_append, ht.replayed]
    rfl

theorem Tracked.release {s : State} (ht : Tracked s) (frame : Frame) {h : Held} (hh : h ∈ s.held)
    (location : Location) : Tracked (s.release frame h location) := by
  obtain ⟨a, ha, hao, hn⟩ := ht.acquired hh
  simp only [State.release, ha]
  constructor
  · exact ht.matched.concat_release rfl rfl ha hao hn ⟨rfl, rfl, rfl⟩
  · rw [replay_concat_release rfl, map_eraseP_key, ← ht.replayed]
    exact map_index_endHolding _ _

theorem Effect.tracked {s t : State} (h : Effect s t) (ht : Tracked s) : Tracked t := by
  cases h with
  | acquire _ guard lock kind location raii => exact ht.acquire _ guard lock kind location raii
  | release _ held location => exact ht.release _ held location
  | rebind _ frame guard => exact ht.of_eq rfl (rebind_indices ..)
  | degrade => exact ht.of_eq rfl rfl
  | pop => exact ht.of_eq rfl rfl
  | enter block =>
    unfold State.enter
    split <;> exact ht.of_eq rfl rfl
  | push callee target destination =>
    unfold State.push
    split <;> exact ht.of_eq rfl rfl

theorem Effects.tracked {s t : State} (h : Effects s t) (ht : Tracked s) : Tracked t :=
  h.preserve (fun _ _ he => he.tracked) ht

/-- Every state that steps lead to is reached by single effects. -/
theorem Reachable.effects {g : CallGraph} {options : Options} {root : Name} {s : State}
    (h : Reachable g options root s) : Effects (.start root) s := by
  induction h with
  | refl => exact .refl
  | tail _ hs ih => exact ih.trans (hs.effects (ih.tracked (tracked_start root)).heldApart)

theorem Reachable.tracked {g : CallGraph} {options : Options} {root : Name} {s : State}
    (h : Reachable g options root s) : Tracked s :=
  h.effects.tracked (tracked_start root)

/-! ### Guards and replays -/

/-- In every state that steps lead to, a replay of the events ends with the guards that are held, in the
same order. These are the acquisitions that no later event releases, in ascending order, and the next
acquisition is nested with each of them. -/
theorem held_eq_replay {g : CallGraph} {options : Options} {root : Name} {s : State}
    (h : Reachable g options root s) :
    (replay s.events).map Holding.index = s.held.map Held.index ∧
    (s.held.map Held.index).Pairwise (· < ·) ∧
    (∀ j, j ∈ s.held.map Held.index ↔
      ∃ a, s.events[j]? = some a ∧ a.op = .acquire ∧ NotReleased s.events j) ∧
    ∀ e degraded, e.op = .acquire →
      nestings { root, events := s.events ++ [e], degraded } =
        nestings { root, events := s.events, degraded } ++
          (replay s.events).map fun k =>
            { first := k, second := { index := s.events.length, event := e } } := by
  have ht := h.tracked
  refine ⟨ht.replayed, ht.replayed ▸ (replay_ascending s.events).1, ?_, ?_⟩
  · intro j
    constructor
    · intro hj
      obtain ⟨k, hk, rfl⟩ := List.mem_map.mp hj
      exact ht.acquired hk
    · rintro ⟨a, ha, ho, hn⟩
      rw [← ht.replayed]
      exact List.mem_map.mpr ⟨{ index := j, event := a }, (mem_replay _ _).mpr ⟨ha, ho, hn⟩, rfl⟩
  · intro e degraded he
    simp only [nestings, nestingsFrom_concat, nestingsAt, he]

def releasedOutOfOrder : State :=
  (State.start (.str "main")).run
    [.acquire (.str "a") { site := .static, name := .str "A" } .mutex .unknown (.bool true),
      .acquire (.str "b") { site := .static, name := .str "B" } .mutex .unknown (.bool false),
      .release (.str "a") .unknown]

/-- The newer guard is still held after the older one was released. -/
theorem held_eq_replay_released_out_of_order :
    Reachable (.build []) {} (.str "main") releasedOutOfOrder ∧
    releasedOutOfOrder.events.length = 3 ∧ releasedOutOfOrder.held.map Held.index = [1] ∧
    (replay releasedOutOfOrder.events).map Holding.index = releasedOutOfOrder.held.map Held.index := by
  have h : Reachable (.build []) {} (.str "main") releasedOutOfOrder := run_reachable .refl _
  exact ⟨h, by decide, by decide, (held_eq_replay h).1⟩

end LockAudit.Walk
