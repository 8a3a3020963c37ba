import LockAudit.Proofs.Walk.Closure
import LockAudit.Proofs.Walk.Ownership

/-! # What a key tells

The key of a state leaves out the number of the next activation. But an activation counts its entry when
it begins, and no number occurs in a state before its activation has begun. So the number that is left out
can be read off the counts, and states with one key agree in every part.
-/

namespace LockAudit.Walk

variable {g : CallGraph} {options : Options} {root : Name} {s t : State}

/-- The activations that have counted entries are those that have begun, and no other number occurs. -/
structure Accounted (s : State) : Prop where
  counted : ∀ n, n ∈ s.visits.activations ↔ n < s.nextFrame
  stack : ∀ f ∈ s.frames, f.number < s.nextFrame
  held : ∀ h ∈ s.held, h.frame < s.nextFrame
  events : ∀ e ∈ s.events, ∃ n < s.nextFrame, e.frame = Int.ofNat n

def CountsAll (s : State) : Prop :=
  ∀ n < s.nextFrame, n ∈ s.visits.activations

theorem countsAll_start (root : Name) : CountsAll (.start root) := by
  simp [CountsAll, State.start, Visits.activations]

theorem CountsAll.push (h : CountsAll s) (callee : Name) (target : Option Target) (destination : Name) :
    CountsAll (s.push callee target destination) := by
  unfold State.push
  split
  · exact h
  · intro n hn
    refine (mem_activations_enter ..).mpr ?_
    rcases Nat.lt_succ_iff_lt_or_eq.mp hn with hlt | heq
    · refine .inr ?_
      cases target with
      | none => exact h n hlt
      | some block => exact (mem_activations_enter ..).mpr (.inr (h n hlt))
    · exact .inl heq

theorem Effect.countsAll (h : Effect s t) (hs : CountsAll s) : CountsAll t := by
  cases h with
  | acquire _ guard lock kind location raii => exact hs
  | release _ held location =>
    unfold State.release
    split <;> exact hs
  | rebind _ frame guard => exact hs
  | degrade => exact hs
  | pop => exact hs
  | enter block =>
    unfold State.enter
    split
    · exact hs
    · intro n hn
      exact (mem_activations_enter ..).mpr (.inr (hs n hn))
  | push callee target destination => exact hs.push callee target destination

theorem Reachable.countsAll (h : Reachable g options root s) : CountsAll s :=
  h.effects.preserve (fun _ _ he => he.countsAll) (countsAll_start root)

theorem Turns.next_le {as as' : List Activation} {next next' : Nat}
    (h : Turns g options as next as' next') : next ≤ next' := by
  cases h with
  | stays => exact Nat.le_refl _
  | ends => exact Nat.le_refl _
  | begins => exact Nat.le_succ _

theorem RunsOwner.lt_nextFrame {k : Held} (h : RunsOwner s k) (hn : Numbered s) :
    k.frame < s.nextFrame := by
  obtain ⟨a, below, hs, hk⟩ := h
  obtain ⟨f, hf, rfl⟩ := List.mem_map.mp (show a ∈ s.activations by simp [hs])
  exact hk ▸ hn.stack f hf

/-- A guard is owned by the activation that acquired it or, after a return, by the one that called it. -/
theorem Reachable.owner_lt_nextFrame (h : Reachable g options root s) :
    ∀ k ∈ s.held, k.frame < s.nextFrame := by
  induction h with
  | refl => simp [State.start]
  | tail hr hs ih =>
    have htracked := Reachable.tracked hr
    have hle := (hs.progresses htracked).turns.next_le
    intro k hk
    cases (hs.treats htracked).held k hk with
    | kept hk => exact Nat.lt_of_lt_of_le (ih k hk) hle
    | spared hk => exact Nat.lt_of_lt_of_le (ih k hk) hle
    | acquired hruns => exact Nat.lt_of_lt_of_le (hruns.lt_nextFrame (Reachable.numbered hr)) hle
    | returned _ _ _ _ _ hruns => exact hruns.lt_nextFrame (Reachable.numbered (hr.tail hs))

theorem Reachable.accounted (h : Reachable g options root s) : Accounted s := by
  refine ⟨fun n => ⟨h.numbered.entered n, h.countsAll n⟩, h.numbered.stack, h.owner_lt_nextFrame, ?_⟩
  obtain ⟨stack, hstack⟩ := h.registered
  intro e he
  obtain ⟨n, hn, hframe, _⟩ := hstack.logged e he
  exact ⟨n, hn, hframe⟩

def State.canonical (s : State) : State :=
  { s with
    frames := s.frames.map Frame.canonical
    held := s.held.map Held.canonical
    events := s.events.map Event.canonical
    visits := s.visits.map visitKey }

theorem Alike.canonical_eq (h : Alike s t) : s.canonical = t.canonical := by
  simp only [State.canonical, h.frames, h.held, h.events, h.visits, h.nextFrame, h.degraded]

/-- In every state to which steps lead from a root, entries are counted for exactly the activations below the
next number, and no other activation occurs on the stack, as an owner or in an event. Two such states with one
key agree in every part, the next number included; where names are canonical they are one state. -/
theorem key_identifies_state (hs : Reachable g options root s) (ht : Reachable g options root t) :
    Accounted s ∧ Accounted t ∧ (s.key = t.key → Alike s t) ∧
      (s.canonical = s → t.canonical = t → s.key = t.key → s = t) := by
  refine ⟨hs.accounted, ht.accounted, alike_of_key hs ht, ?_⟩
  intro hsc htc hkey
  rw [← hsc, ← htc, (alike_of_key hs ht hkey).canonical_eq]

def returnedTo (target : Target) : State :=
  ((State.start (.str "main")).push (.str "main") (some target) .null).leave .null .unknown

theorem reachable_returnedTo (target : Target) :
    Reachable (.build callingItself) {} (.str "main") (returnedTo target) := by
  let call : Call :=
    { site := .str "s", callee := .str "main", signature := .null, method := .null
      target := some target, destination := .null, location := .unknown }
  have hmark : (State.start (.str "main")).markCall (.build callingItself) (.str "s") =
      .start (.str "main") := by decide +kernel
  have hinlined : (State.start (.str "main")).inlined (.build callingItself) {} (.str "s") =
      [.str "main"] := by decide +kernel
  have hcall : (State.start (.str "main")).push (.str "main") (some target) .null ∈
      ((State.start (.str "main")).markCall (.build callingItself) call.site).calls
        (.build callingItself) {} call := by
    simp only [hmark, State.calls, call, hinlined]
    simp
  exact (Relation.ReflTransGen.single (.call hcall)).tail (.leave _ .null .unknown)

/-- One and true are one block, so the two states have one key, and both have begun two activations. -/
theorem key_identifies_state_returnedTo :
    returnedTo (.int 1) ≠ returnedTo (.bool true) ∧
      (returnedTo (.int 1)).key = (returnedTo (.bool true)).key ∧
      Alike (returnedTo (.int 1)) (returnedTo (.bool true)) ∧
      Accounted (returnedTo (.int 1)) ∧ (returnedTo (.int 1)).nextFrame = 2 := by
  have hkey : (returnedTo (.int 1)).key = (returnedTo (.bool true)).key := by decide +kernel
  obtain ⟨haccounted, _, halike, _⟩ :=
    key_identifies_state (reachable_returnedTo (.int 1)) (reachable_returnedTo (.bool true))
  exact ⟨by decide +kernel, hkey, halike hkey, haccounted, by decide +kernel⟩

end LockAudit.Walk
