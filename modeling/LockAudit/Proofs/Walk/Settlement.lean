import LockAudit.Proofs.Walk.Matching

/-! # What scope ends and returns do

The end of a scope and a return deal with several guards, one after the other. Together this comes to one
change of the state: every guard that is dealt with is dropped or put in its place, all others stay as and
where they are, and the events get one release for each guard that is dropped, the newest first.
-/

namespace LockAudit.Walk

theorem eraseP_key_eq_filter {α : Type} {key : α → Nat} {xs : List α} (hn : (xs.map key).Nodup)
    (k : Nat) : (xs.eraseP fun x => key x == k) = xs.filter fun x => key x != k := by
  induction xs with
  | nil => rfl
  | cons x xs ih =>
    obtain ⟨hx, hxs⟩ := List.nodup_cons.mp hn
    by_cases hk : key x = k
    · have hrest : ∀ y ∈ xs, (key y != k) = true := by
        intro y hy
        refine bne_iff_ne.mpr fun hyk => hx ?_
        exact hk ▸ hyk ▸ List.mem_map_of_mem hy
      rw [List.eraseP_cons_of_pos (by simpa using hk), List.filter_cons_of_neg (by simpa using hk),
        List.filter_eq_self.mpr hrest]
    · rw [List.eraseP_cons_of_neg (by simpa using hk), List.filter_cons_of_pos (by simpa using hk),
        ih hxs]

theorem HeldApart.eq_of_index {s : State} (ha : HeldApart s) {h k : Held} (hh : h ∈ s.held)
    (hk : k ∈ s.held) (hi : k.index = h.index) : k = h :=
  List.inj_on_of_nodup_map ha hk hh hi

/-! ### One guard -/

def State.closing (s : State) (frame : Frame) (location : Location) (h : Held) : Option Event :=
  s.events[h.index]?.map fun e => s.ending frame e h.index location

theorem release_eq {s : State} {frame : Frame} {h : Held} {location : Location}
    (hv : h.index < s.events.length) :
    s.release frame h location =
      { s with
        held := s.held.eraseP fun k => k.index == h.index
        events := s.events ++ [h].filterMap (s.closing frame location) } := by
  simp [State.release, State.closing, List.getElem?_eq_getElem hv]

/-- Deals with a guard on behalf of the running activation: `fate` says what becomes of the guard, nothing
where it is dropped. -/
def State.deal (frame : Frame) (location : Location) (fate : Held → Option Held) (s : State) (h : Held) :
    State :=
  match fate h with
  | none => s.release frame h location
  | some k => { s with held := s.held.map fun x => if x.index == h.index then k else x }

def dealt (fate : Held → Option Held) (l : List Held) (k : Held) : Option Held :=
  if k.index ∈ l.map Held.index then fate k else some k

section

variable (frame : Frame) (location : Location) {fate : Held → Option Held}

theorem dealt_of_mem {l : List Held} {k : Held} (h : k ∈ l) : dealt fate l k = fate k :=
  if_pos (List.mem_map_of_mem h)

/-- Dealing with one guard adds its release, if it is dropped, and touches no other guard. -/
theorem deal_eq {s : State} {h : Held} (ha : HeldApart s) (hh : h ∈ s.held)
    (hv : h.index < s.events.length) :
    s.deal frame location fate h =
      { s with
        held := s.held.filterMap (dealt fate [h])
        events := s.events ++ ([h].filter fun k => (fate k).isNone).filterMap (s.closing frame location) } := by
  have hdealt : ∀ x ∈ s.held, dealt fate [h] x = if x.index == h.index then fate h else some x := by
    intro x hx
    by_cases hi : x.index = h.index
    · simp [dealt, ha.eq_of_index hh hx hi]
    · simp [dealt, hi]
  unfold State.deal
  cases hf : fate h with
  | none =>
    have hheld : s.held.filterMap (dealt fate [h]) = s.held.filter fun x => x.index != h.index := by
      rw [← List.filterMap_eq_filter]
      apply List.filterMap_congr
      intro x hx
      rw [hdealt x hx, hf]
      by_cases hi : x.index = h.index <;> simp [hi, Option.guard]
    rw [hheld, ← eraseP_key_eq_filter ha]
    simp [release_eq hv, hf]
  | some k =>
    have hheld : s.held.filterMap (dealt fate [h]) =
        s.held.map fun x => if x.index == h.index then k else x := by
      rw [← List.filterMap_eq_map]
      apply List.filterMap_congr
      intro x hx
      rw [hdealt x hx, hf]
      by_cases hi : x.index = h.index <;> simp [hi]
    simp [hheld, hf]

/-! ### Several guards -/

theorem heldApart_filterMap {s : State} (ha : HeldApart s) {f : Held → Option Held}
    (hf : ∀ h k, f h = some k → k.index = h.index) : ((s.held.filterMap f).map Held.index).Nodup := by
  have hsub : ((s.held.filterMap f).map Held.index).Sublist (s.held.map Held.index) := by
    rw [List.map_filterMap]
    induction s.held with
    | nil => exact .slnil
    | cons h held ih =>
      cases hk : f h with
      | none => simpa [hk] using ih.cons h.index
      | some k => simpa [hk, hf h k hk] using ih.cons_cons h.index
  exact ha.sublist hsub

theorem dealt_index (hfate : ∀ h k, fate h = some k → k.index = h.index) (l : List Held) :
    ∀ h k, dealt fate l h = some k → k.index = h.index := by
  intro h k hk
  unfold dealt at hk
  split at hk
  · exact hfate h k hk
  · cases hk
    rfl

/-- What was dealt with first is not touched again. -/
theorem filterMap_dealt_cons (hfate : ∀ h k, fate h = some k → k.index = h.index) {h : Held}
    {l : List Held} (hn : h.index ∉ l.map Held.index) (held : List Held) :
    (held.filterMap (dealt fate [h])).filterMap (dealt fate l) = held.filterMap (dealt fate (h :: l)) := by
  rw [List.filterMap_filterMap]
  apply List.filterMap_congr
  intro x _
  by_cases hi : x.index = h.index
  · have hall : dealt fate (h :: l) x = fate x := if_pos (by simp [hi])
    have hfirst : dealt fate [h] x = fate x := if_pos (by simp [hi])
    rw [hall, hfirst]
    cases hk : fate x with
    | none => rfl
    | some k => exact if_neg (by rw [hfate x k hk, hi]; exact hn)
  · simp [dealt, hi]

/-- Further events do not change what the end of a guard looks like. -/
theorem closing_append {s : State} {h : Held} (hv : h.index < s.events.length) (held : List Held)
    (es : List Event) :
    ({ s with held, events := s.events ++ es } : State).closing frame location h =
      s.closing frame location h := by
  simp only [State.closing, List.getElem?_append_left hv]
  rfl

/-- Guards are dealt with one after the other, and then nothing else has changed. -/
theorem foldl_deal (hfate : ∀ h k, fate h = some k → k.index = h.index) (l : List Held) {s : State}
    (ha : HeldApart s) (hm : ∀ h ∈ l, h ∈ s.held) (hl : (l.map Held.index).Nodup)
    (hv : ∀ h ∈ l, h.index < s.events.length) :
    l.foldl (State.deal frame location fate) s =
      { s with
        held := s.held.filterMap (dealt fate l)
        events := s.events ++ (l.filter fun h => (fate h).isNone).filterMap (s.closing frame location) } := by
  induction l generalizing s with
  | nil =>
    have hheld : s.held.filterMap (dealt fate []) = s.held := List.filterMap_some
    simp [hheld]
  | cons h l ih =>
    obtain ⟨hh, hm⟩ := List.forall_mem_cons.mp hm
    obtain ⟨hhv, hv⟩ := List.forall_mem_cons.mp hv
    obtain ⟨hn, hl⟩ := List.nodup_cons.mp hl
    rw [List.foldl_cons, deal_eq frame location ha hh hhv]
    -- dealing with `h` may log an event, but the guards of `l` keep their places and their acquisitions
    have hothers : ∀ k ∈ l, k ∈ s.held.filterMap (dealt fate [h]) := by
      intro k hk
      refine List.mem_filterMap.mpr ⟨k, hm k hk, if_neg ?_⟩
      intro hi
      exact hn (List.mem_singleton.mp hi ▸ List.mem_map_of_mem hk)
    have hapart := heldApart_filterMap ha (dealt_index hfate [h])
    rw [ih (s := { s with held := _, events := _ }) hapart hothers hl]
    · have hclosing : ∀ es, ∀ k ∈ l.filter fun k => (fate k).isNone,
          ({ s with held := s.held.filterMap (dealt fate [h]), events := s.events ++ es } :
            State).closing frame location k = s.closing frame location k := fun es k hk =>
        closing_append frame location (hv k (List.mem_filter.mp hk).1) _ es
      rw [filterMap_dealt_cons hfate hn, List.filterMap_congr (hclosing _)]
      dsimp only
      rw [List.append_assoc, ← List.filterMap_append, ← List.filter_append, List.singleton_append]
    · intro k hk
      rw [List.length_append]
      exact Nat.lt_add_right _ (hv k hk)

end

/-! ### Scope ends -/

theorem Tracked.index_lt {s : State} (ht : Tracked s) {h : Held} (hh : h ∈ s.held) :
    h.index < s.events.length := by
  obtain ⟨a, ha, _⟩ := ht.acquired hh
  exact (List.getElem?_eq_some_iff.mp ha).1

theorem filterMap_dealt_filter {s : State} (ha : HeldApart s) (p : Held → Bool)
    (fate : Held → Option Held) :
    s.held.filterMap (dealt fate (s.held.reverse.filter p)) =
      s.held.filterMap fun h => if p h then fate h else some h := by
  apply List.filterMap_congr
  intro x hx
  by_cases hp : p x = true
  · rw [if_pos hp]
    exact dealt_of_mem (List.mem_filter.mpr ⟨List.mem_reverse.mpr hx, hp⟩)
  · rw [if_neg hp]
    refine if_neg ?_
    intro hi
    obtain ⟨k, hk, hki⟩ := List.mem_map.mp hi
    obtain ⟨hks, hkp⟩ := List.mem_filter.mp hk
    rw [ha.eq_of_index hx (List.mem_reverse.mp hks) hki] at hkp
    exact hp hkp

/-- The end of a scope drops the RAII guards among its locals, and leaves all else as it is. -/
theorem apply_scopeExit {s : State} (ht : Tracked s) {frame : Frame} {callers : List Frame}
    (hs : s.frames = frame :: callers) (locals : List Name) (location : Location) :
    s.apply (.scopeExit locals location) =
      { s with
        held := s.held.filter fun h =>
          !(h.raii.truthy && h.frame == frame.number && locals.any h.guard.same)
        events := s.events ++ (s.dropped frame.number locals).filterMap (s.closing frame location) } := by
  have hmem : ∀ h ∈ s.dropped frame.number locals, h ∈ s.held := fun h hh =>
    List.mem_reverse.mp (List.mem_filter.mp hh).1
  have hnone : ∀ h k : Held, (fun _ => none : Held → Option Held) h = some k → k.index = h.index := by
    rintro h k ⟨⟩
  have hfold := foldl_deal frame location hnone (s.dropped frame.number locals) ht.heldApart hmem
    (ht.heldApart.filter_reverse _) (fun h hh => ht.index_lt (hmem h hh))
  have happly : s.apply (.scopeExit locals location) =
      (s.dropped frame.number locals).foldl (State.deal frame location fun _ => none) s := by
    simp only [State.apply, hs]
    rfl
  rw [happly, hfold, State.dropped, filterMap_dealt_filter ht.heldApart]
  simp only [Option.isNone_none, List.filter_true]
  congr 1
  rw [← List.filterMap_eq_filter]
  apply List.filterMap_congr
  intro h _
  by_cases hp : (h.raii.truthy && h.frame == frame.number && locals.any h.guard.same) = true <;>
    simp [hp, Option.guard]

/-! ### Returns -/

/-- What becomes of a guard of an activation that returns: the returned local goes to the caller's
destination, if there is one, and any other RAII guard is dropped. -/
def settled (frame : Frame) (caller : Option Frame) (value : Name) (h : Held) : Option Held :=
  let kept := if h.raii.truthy then none else some h
  match caller with
  | some c =>
    if h.guard.equals value && frame.returnTo.truthy then
      some { h with frame := c.number, guard := frame.returnTo }
    else kept
  | none => kept

/-- A guard that stays belongs to the caller, or it is a manual one. -/
theorem settled_eq_some {frame : Frame} {caller : Option Frame} {value : Name} {h k : Held}
    (hk : settled frame caller value h = some k) :
    (∃ c, caller = some c ∧ k = { h with frame := c.number, guard := frame.returnTo }) ∨
      (k = h ∧ h.raii.truthy = false) := by
  have hkept : (if h.raii.truthy then none else some h) = some k → k = h ∧ h.raii.truthy = false := by
    intro hk
    split at hk
    · cases hk
    · rename_i hraii
      cases hk
      exact ⟨rfl, Bool.eq_false_iff.mpr hraii⟩
  unfold settled at hk
  cases caller with
  | none => exact .inr (hkept hk)
  | some c =>
    dsimp only at hk
    split at hk
    · cases hk
      exact .inl ⟨c, rfl, rfl⟩
    · exact .inr (hkept hk)

theorem settled_index {frame : Frame} {caller : Option Frame} {value : Name} (h k : Held)
    (hk : settled frame caller value h = some k) : k.index = h.index := by
  obtain ⟨_, _, rfl⟩ | ⟨rfl, _⟩ := settled_eq_some hk <;> rfl

theorem settle_eq_deal {s : State} {h : Held} (ha : HeldApart s) (hh : h ∈ s.held) (frame : Frame)
    (caller : Option Frame) (value : Name) (location : Location) :
    State.settle frame caller value location s h =
      s.deal frame location (settled frame caller value) h := by
  have hmap : ∀ f : Held → Held, (s.held.map fun x => if x.index == h.index then f x else x) =
      s.held.map fun x => if x.index == h.index then f h else x := by
    intro f
    apply List.map_congr_left
    intro x hx
    by_cases hi : x.index = h.index
    · rw [ha.eq_of_index hh hx hi]
    · simp [hi]
  have hstay : (s.held.map fun x => if x.index == h.index then h else x) = s.held := by
    refine (hmap id).symm.trans ?_
    simp
  unfold State.settle State.deal settled
  cases caller with
  | none => by_cases hraii : h.raii.truthy = true <;> simp [hraii, -beq_iff_eq, hstay]
  | some c =>
    dsimp only
    split
    · exact congrArg (fun held => { s with held }) (hmap _)
    · by_cases hraii : h.raii.truthy = true <;> simp [hraii, -beq_iff_eq, hstay]

theorem foldl_settle {s : State} {frame : Frame} (top : s.frames.head? = some frame) (ha : HeldApart s)
    {l : List Held} (hm : ∀ h ∈ l, h ∈ s.held) (hl : (l.map Held.index).Nodup) (caller : Option Frame)
    (value : Name) (location : Location) :
    l.foldl (State.settle frame caller value location) s =
      l.foldl (State.deal frame location (settled frame caller value)) s := by
  induction l generalizing s with
  | nil => rfl
  | cons h l ih =>
    obtain ⟨hh, hm⟩ := List.forall_mem_cons.mp hm
    obtain ⟨hn, hl⟩ := List.nodup_cons.mp hl
    rw [List.foldl_cons, List.foldl_cons, ← settle_eq_deal ha hh]
    have hd := dealtWith_settle top ha hh caller value location
    have hothers : ∀ k ∈ l, k ∈ (State.settle frame caller value location s h).held := by
      intro k hk
      exact hd.others k (hm k hk) fun hi => hn (hi ▸ List.mem_map_of_mem hk)
    exact ih (hd.frames ▸ top) hd.apart hothers hl

/-- A return settles the guards of the running activation and ends it, and leaves all else as it is. -/
theorem leave_eq {s : State} (ht : Tracked s) {frame : Frame} {callers : List Frame}
    (hs : s.frames = frame :: callers) (value : Name) (location : Location) :
    s.leave value location =
      { s with
        frames := callers
        held := s.held.filterMap fun h =>
          if h.frame == frame.number then settled frame callers.head? value h else some h
        events := s.events ++ ((s.held.reverse.filter fun h => h.frame == frame.number).filter fun h =>
          (settled frame callers.head? value h).isNone).filterMap (s.closing frame location) } := by
  have hmem : ∀ h ∈ s.held.reverse.filter fun h => h.frame == frame.number, h ∈ s.held := fun h hh =>
    List.mem_reverse.mp (List.mem_filter.mp hh).1
  have hapart := ht.heldApart.filter_reverse fun h => h.frame == frame.number
  have hindex : ∀ h k, settled frame callers.head? value h = some k → k.index = h.index := settled_index
  have hfold := foldl_deal frame location hindex _ ht.heldApart hmem hapart
    (fun h hh => ht.index_lt (hmem h hh))
  have hsettle := foldl_settle (by rw [hs]; rfl) ht.heldApart hmem hapart callers.head? value location
  simp only [State.leave, hs, hsettle, hfold]
  rw [filterMap_dealt_filter ht.heldApart]

end LockAudit.Walk
