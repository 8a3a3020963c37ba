import LockAudit.Proofs.Walk.Ownership
import LockAudit.Proofs.Walk.Settlement
import Mathlib.Data.List.Forall2

/-! # Which guards end

The end of a scope ends the RAII guards of the running activation among its locals. A return hands the
returned guard over to the caller and ends the other RAII guards of the activation. Both say exactly which
guards that are, and that everything else about the state stays as it is.
-/

namespace LockAudit.Walk

variable {s : State} {frame : Frame} {callers : List Frame}

/-! ### Guards that end together -/

/-- The event is the end of the guard on behalf of the running activation: a release at the given location of
what the guard's acquisition has acquired. -/
structure EndsGuard (s : State) (frame : Frame) (location : Location) (h : Held) (e : Event) : Prop where
  op : e.op = .release
  acquired : e.acquired = some (Int.ofNat h.index)
  location : e.location = location
  inst : e.inst = frame.inst
  chain : e.chain = s.chain
  frame : e.frame = Int.ofNat frame.number
  same : ∃ a, s.events[h.index]? = some a ∧ a.op = .acquire ∧ e.kind = a.kind ∧ e.lock = a.lock ∧
    e.guard = a.guard

/-- From `s` to `t` those guards end for which `ends` holds, each with one release, the newest first. The
others stay in their places, each as `becomes` says. The call stack apart, nothing else changes. -/
structure EndsExactly (frame : Frame) (location : Location) (ends : Held → Bool) (becomes : Held → Held)
    (s t : State) : Prop where
  held : t.held = (s.held.filter fun h => !ends h).map becomes
  events : ∃ releases, t.events = s.events ++ releases ∧
    List.Forall₂ (EndsGuard s frame location) (s.held.filter ends).reverse releases
  descending : ((s.held.filter ends).reverse.map Held.index).Pairwise (· > ·)
  visits : t.visits = s.visits
  nextFrame : t.nextFrame = s.nextFrame
  degraded : t.degraded = s.degraded

theorem forall₂_closing (ht : Tracked s) (location : Location) {l : List Held}
    (hl : ∀ h ∈ l, h ∈ s.held) :
    List.Forall₂ (EndsGuard s frame location) l (l.filterMap (s.closing frame location)) := by
  induction l with
  | nil => exact .nil
  | cons h l ih =>
    obtain ⟨hh, hl⟩ := List.forall_mem_cons.mp hl
    obtain ⟨a, ha, hop, _⟩ := ht.acquired hh
    have hclosing : s.closing frame location h = some (s.ending frame a h.index location) := by
      rw [State.closing, ha, Option.map_some]
    rw [List.filterMap_cons_some hclosing]
    exact .cons ⟨rfl, rfl, rfl, rfl, rfl, rfl, a, ha, hop, rfl, rfl, rfl⟩ (ih hl)

theorem Tracked.ascending (ht : Tracked s) : (s.held.map Held.index).Pairwise (· < ·) :=
  ht.replayed ▸ (Detection.replay_ascending s.events).1

theorem Tracked.descending (ht : Tracked s) (ends : Held → Bool) :
    ((s.held.filter ends).reverse.map Held.index).Pairwise (· > ·) := by
  -- guards are held in the order of their acquisitions, and end from the last one on
  rw [List.map_reverse, List.pairwise_reverse]
  exact ht.ascending.sublist (List.filter_sublist.map Held.index)

theorem Tracked.ends (ht : Tracked s) (location : Location) (ends : Held → Bool) (becomes : Held → Held)
    (frames : List Frame) :
    EndsExactly frame location ends becomes s
      { s with
        frames
        held := (s.held.filter fun h => !ends h).map becomes
        events := s.events ++ (s.held.reverse.filter ends).filterMap (s.closing frame location) } := by
  refine ⟨rfl, ⟨_, rfl, ?_⟩, ht.descending ends, rfl, rfl, rfl⟩
  rw [List.filter_reverse]
  refine forall₂_closing ht location fun h hh => ?_
  exact (List.mem_filter.mp (List.mem_reverse.mp hh)).1

/-! ### Scope ends and returns -/

def endsWithScope (frame : Frame) (locals : List Name) (h : Held) : Bool :=
  h.raii.truthy && h.frame == frame.number && locals.any h.guard.same

/-- The guard is the returned one of the activation, and there is a caller with a destination for it. -/
def isHandedOver (frame : Frame) (callers : List Frame) (value : Name) (h : Held) : Bool :=
  h.frame == frame.number && h.guard.equals value && frame.returnTo.truthy && !callers.isEmpty

def endsWithReturn (frame : Frame) (callers : List Frame) (value : Name) (h : Held) : Bool :=
  h.frame == frame.number && h.raii.truthy && !isHandedOver frame callers value h

def handOver (frame : Frame) (callers : List Frame) (value : Name) (h : Held) : Held :=
  match callers with
  | [] => h
  | caller :: _ =>
    if isHandedOver frame callers value h then
      { h with frame := caller.number, guard := frame.returnTo }
    else h

theorem filterMap_eq_map_filter {α β : Type} {f : α → Option β} {p : α → Bool} {k : α → β} {xs : List α}
    (h : ∀ x ∈ xs, f x = if p x then none else some (k x)) :
    xs.filterMap f = (xs.filter fun x => !p x).map k := by
  rw [← List.filterMap_eq_map, ← List.filterMap_eq_filter, List.filterMap_filterMap]
  refine List.filterMap_congr fun x hx => ?_
  rw [h x hx]
  cases hp : p x <;> simp [Option.guard, hp]

theorem settled_eq_ite {value : Name} {h : Held} (hown : (h.frame == frame.number) = true) :
    settled frame callers.head? value h =
      if endsWithReturn frame callers value h then none else some (handOver frame callers value h) := by
  cases callers with
  | nil => cases hraii : h.raii.truthy <;> simp [settled, endsWithReturn, isHandedOver, handOver, hown, hraii]
  | cons caller rest =>
    cases hraii : h.raii.truthy <;> cases hvalue : h.guard.equals value <;>
      cases hto : frame.returnTo.truthy <;>
        simp [settled, endsWithReturn, isHandedOver, handOver, hown, hraii, hvalue, hto]

theorem handOver_of_other {value : Name} {h : Held} (hown : ¬(h.frame == frame.number) = true) :
    handOver frame callers value h = h := by
  cases callers with
  | nil => rfl
  | cons caller rest => simp [handOver, isHandedOver, hown]

theorem Tracked.scopeExit_ends (ht : Tracked s) (hs : s.frames = frame :: callers) (locals : List Name)
    (location : Location) :
    EndsExactly frame location (endsWithScope frame locals) id s (s.apply (.scopeExit locals location)) := by
  have hheld : (s.held.filter fun h => !endsWithScope frame locals h) =
      (s.held.filter fun h => !endsWithScope frame locals h).map id := (List.map_id _).symm
  rw [apply_scopeExit ht hs]
  exact hheld ▸ ht.ends location (endsWithScope frame locals) id s.frames

/-- A return ends the RAII guards of its activation and hands the returned one over. -/
theorem Tracked.leave_ends (ht : Tracked s) (hs : s.frames = frame :: callers) (value : Name)
    (location : Location) :
    EndsExactly frame location (endsWithReturn frame callers value) (handOver frame callers value) s
      (s.leave value location) := by
  have hheld : (s.held.filterMap fun h =>
      if h.frame == frame.number then settled frame callers.head? value h else some h) =
      (s.held.filter fun h => !endsWithReturn frame callers value h).map
        (handOver frame callers value) := by
    refine filterMap_eq_map_filter fun h _ => ?_
    -- only guards of the activation are settled, and a guard of another neither ends nor moves
    by_cases hown : (h.frame == frame.number) = true
    · rw [if_pos hown, settled_eq_ite hown]
    · have hstays : endsWithReturn frame callers value h = false := by simp [endsWithReturn, hown]
      rw [if_neg hown, hstays, handOver_of_other hown]
      rfl
  have hended : ((s.held.reverse.filter fun h => h.frame == frame.number).filter fun h =>
      (settled frame callers.head? value h).isNone) =
      s.held.reverse.filter (endsWithReturn frame callers value) := by
    rw [List.filter_filter]
    refine List.filter_congr fun h _ => ?_
    by_cases hown : (h.frame == frame.number) = true
    · rw [settled_eq_ite hown, hown, Bool.and_true]
      cases endsWithReturn frame callers value h <;> rfl
    · simp [endsWithReturn, hown]
  rw [leave_eq ht hs, hheld, hended]
  exact ht.ends location _ _ callers

/-- In every state that steps lead to, a scope end and a return do exactly this. A scope end ends the RAII
guards of the running activation among its locals. A return hands the guards of the returned local over to
the caller's destination, where there is one, ends the other RAII guards of the activation, and the
activation with them. Each guard that ends is released once, in descending order of the acquisitions, and
all other guards stay as they are and where they are. -/
theorem guard_ends_exact {g : CallGraph} {options : Options} {root : Name}
    (h : Reachable g options root s) (hs : s.frames = frame :: callers) (location : Location) :
    (∀ locals,
      EndsExactly frame location (endsWithScope frame locals) id s (s.apply (.scopeExit locals location)) ∧
      (s.apply (.scopeExit locals location)).frames = s.frames) ∧
    ∀ value,
      EndsExactly frame location (endsWithReturn frame callers value) (handOver frame callers value) s
        (s.leave value location) ∧
      (s.leave value location).frames = callers := by
  have ht := h.tracked
  refine ⟨fun locals => ⟨ht.scopeExit_ends hs locals location, ?_⟩,
    fun value => ⟨ht.leave_ends hs value location, ?_⟩⟩
  · rw [apply_scopeExit ht hs]
  · rw [leave_eq ht hs]

def holdingThree : State :=
  opened.run
    [.acquire (.str "x") { site := .static, name := .str "A" } .mutex .unknown (.bool true),
      .acquire (.str "m") { site := .static, name := .str "B" } .spinMutex .unknown (.bool false),
      .acquire (.str "y") { site := .static, name := .str "C" } .mutex .unknown (.bool true)]

/-- The manual guard between two RAII guards stays, both at the end of a scope and at a return. -/
theorem guard_ends_exact_handover :
    ∃ frame callers,
      Reachable handover {} (.str "main") holdingThree ∧ holdingThree.frames = frame :: callers ∧
      EndsExactly frame .unknown (endsWithScope frame [.str "x", .str "m", .str "y"]) id holdingThree
        (holdingThree.apply (.scopeExit [.str "x", .str "m", .str "y"] .unknown)) ∧
      (holdingThree.apply (.scopeExit [.str "x", .str "m", .str "y"] .unknown)).events.map
        Event.acquired = [none, none, none, some 2, some 0] ∧
      EndsExactly frame .unknown (endsWithReturn frame callers (.str "x")) (handOver frame callers (.str "x"))
        holdingThree (holdingThree.leave (.str "x") .unknown) ∧
      (holdingThree.leave (.str "x") .unknown).held.map (fun h => (h.index, h.frame, h.guard)) =
        [(0, 0, .str "g"), (1, 1, .str "m")] := by
  let callee : Frame := { inst := .str "open", block := some (.int 0), number := 1, returnTo := .str "g" }
  let caller : Frame := { inst := .str "main", block := some (.int 1), number := 0, returnTo := .null }
  have hreach : Reachable handover {} (.str "main") holdingThree := run_reachable opened_reachable _
  have hframes : holdingThree.frames = [callee, caller] := by decide +kernel
  obtain ⟨hscope, hreturn⟩ := guard_ends_exact hreach hframes .unknown
  exact ⟨callee, [caller], hreach, hframes, (hscope _).1, by decide +kernel, (hreturn _).1,
    by decide +kernel⟩

end LockAudit.Walk
