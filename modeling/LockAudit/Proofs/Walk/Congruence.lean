import LockAudit.Proofs.Name.Canonical
import LockAudit.Proofs.Order.Related
import LockAudit.Proofs.Walk.Run
import Mathlib.Logic.Function.Basic

/-! # States with the same names

Two states are alike if they differ only in how their names are written. Steps from states that are
alike lead to states that are alike, so a walk has nothing new to find where it meets the key of an
earlier state.
-/

namespace LockAudit

/-! ### Lists that agree under a map -/

section Lists

variable {α β : Type} {f : α → β} {p q : α → Bool} {xs ys : List α}

theorem exists_factor (hp : ∀ a b, f a = f b → p a = q b) :
    ∃ r : β → Bool, p = r ∘ f ∧ q = r ∘ f := by
  have hpq : p = q := funext fun a => hp a a rfl
  have hf : Function.FactorsThrough p f := fun a b hab => (hp a b hab).trans (hp b b rfl).symm
  refine ⟨Function.extend f p fun _ => false, ?_, ?_⟩
  · exact funext fun a => (hf.extend_apply _ a).symm
  · exact hpq ▸ funext fun a => (hf.extend_apply _ a).symm

theorem map_filter_congr (hp : ∀ a b, f a = f b → p a = q b) (h : xs.map f = ys.map f) :
    (xs.filter p).map f = (ys.filter q).map f := by
  obtain ⟨r, rfl, rfl⟩ := exists_factor hp
  rw [← List.filter_map, h, List.filter_map]

theorem map_find?_congr (hp : ∀ a b, f a = f b → p a = q b) (h : xs.map f = ys.map f) :
    (xs.find? p).map f = (ys.find? q).map f := by
  obtain ⟨r, rfl, rfl⟩ := exists_factor hp
  rw [← List.find?_map, h, List.find?_map]

theorem countP_congr_map (hp : ∀ a b, f a = f b → p a = q b) (h : xs.map f = ys.map f) :
    xs.countP p = ys.countP q := by
  obtain ⟨r, rfl, rfl⟩ := exists_factor hp
  rw [← List.countP_map, h, List.countP_map]

theorem map_eraseP_congr (hp : ∀ a b, f a = f b → p a = q b) (h : xs.map f = ys.map f) :
    (xs.eraseP p).map f = (ys.eraseP q).map f := by
  obtain ⟨r, rfl, rfl⟩ := exists_factor hp
  rw [← List.eraseP_map, h, List.eraseP_map]

/-- Lists that agree under a map can be taken apart together. -/
theorem forall₂_of_map_eq (h : xs.map f = ys.map f) : List.Forall₂ (fun a b => f a = f b) xs ys := by
  rw [← List.forall₂_map_right_iff, ← List.forall₂_map_left_iff, List.forall₂_eq_eq_eq]
  exact h

theorem map_map_congr {g g' : α → α} (hg : ∀ a b, f a = f b → f (g a) = f (g' b))
    (h : xs.map f = ys.map f) : (xs.map g).map f = (ys.map g').map f := by
  induction forall₂_of_map_eq h with
  | nil => rfl
  | cons hab _ ih =>
    obtain ⟨_, h⟩ := List.cons.inj h
    simp only [List.map_cons, hg _ _ hab, ih h]

theorem option_map_eq_cases {o o' : Option α} (h : o.map f = o'.map f) :
    (o = none ∧ o' = none) ∨ ∃ a b, o = some a ∧ o' = some b ∧ f a = f b := by
  cases o with
  | none => exact .inl ⟨rfl, Option.map_eq_none_iff.mp h.symm⟩
  | some a =>
    obtain ⟨b, hb, hab⟩ := Option.map_eq_some_iff.mp h.symm
    exact .inr ⟨a, b, rfl, hb, hab.symm⟩

end Lists

namespace Walk

/-! ### Parts of states -/

theorem Frame.canonical_eq_iff {a b : Frame} : a.canonical = b.canonical ↔
    a.inst.canonical = b.inst.canonical ∧ a.block.map Json.canonical = b.block.map Json.canonical ∧
      a.number = b.number ∧ a.returnTo.canonical = b.returnTo.canonical := by
  simp [Frame.canonical]

theorem Held.canonical_eq_iff {a b : Held} : a.canonical = b.canonical ↔
    a.frame = b.frame ∧ a.guard.canonical = b.guard.canonical ∧ a.index = b.index ∧
      a.raii.canonical = b.raii.canonical := by
  simp [Held.canonical]

def visitKey (v : (Nat × Target) × Nat) : (Nat × Target) × Nat :=
  ((v.1.1, v.1.2.canonical), v.2)

theorem visitKey_eq_iff {v w : (Nat × Target) × Nat} : visitKey v = visitKey w ↔
    v.1.1 = w.1.1 ∧ v.1.2.canonical = w.1.2.canonical ∧ v.2 = w.2 := by
  simp [visitKey, and_assoc]

theorem count_eq (vs : Visits) (frame : Nat) (block : Target) :
    vs.count frame block =
      (((vs.find? fun v => v.1.1 == frame && Name.same v.1.2 block).map visitKey).map Prod.snd).getD 0 := by
  unfold Visits.count
  split <;> rename_i h <;> rw [h] <;> rfl

theorem count_congr {vs ws : Visits} (h : vs.map visitKey = ws.map visitKey) (frame : Nat)
    (block : Target) : vs.count frame block = ws.count frame block := by
  rw [count_eq, count_eq]
  refine congrArg (fun o => (Option.map Prod.snd o).getD 0) (map_find?_congr ?_ h)
  intro v w hvw
  obtain ⟨hf, hk, _⟩ := visitKey_eq_iff.mp hvw
  rw [hf, Name.same_congr hk rfl]

theorem enter_congr {vs ws : Visits} (h : vs.map visitKey = ws.map visitKey) (frame : Nat)
    (block : Target) : (vs.enter frame block).map visitKey = (ws.enter frame block).map visitKey := by
  induction forall₂_of_map_eq h with
  | nil => rfl
  | @cons v w vs ws hvw _ ih =>
    obtain ⟨_, hrest⟩ := List.cons.inj h
    obtain ⟨⟨f, b⟩, n⟩ := v
    obtain ⟨⟨f', b'⟩, n'⟩ := w
    obtain ⟨hf, hb, hn⟩ := visitKey_eq_iff.mp hvw
    dsimp only at hf hb hn
    subst hf hn
    have hsame : Name.same b block = Name.same b' block := Name.same_congr hb rfl
    have hcompare : compare block b = compare block b' := Name.compare_congr rfl hb
    simp only [Visits.enter, hsame, hcompare]
    split
    · simp [visitKey, hb, hrest]
    · split
      · simp [visitKey, hb, hrest]
      · simp [visitKey, hb, ih hrest]

theorem event_canonical_eq_iff {a b : Event} : a.canonical = b.canonical ↔
    a.op = b.op ∧ a.kind = b.kind ∧ a.lock.canonical = b.lock.canonical ∧ a.location = b.location ∧
      a.inst.canonical = b.inst.canonical ∧ a.guard.canonical = b.guard.canonical ∧
      a.chain.map Json.canonical = b.chain.map Json.canonical ∧ a.acquired = b.acquired ∧
      a.frame = b.frame := by
  simp [Event.canonical]

theorem apply_release {s : State} {frame : Frame} {callers : List Frame} (hs : s.frames = frame :: callers)
    (guard : Name) (location : Location) :
    s.apply (.release guard location) =
      match s.findHeld frame.number guard with
      | some h => s.release frame h location
      | none => { s with degraded := true } := by
  cases s
  cases hs
  rfl

theorem markCall_eq {s : State} {frame : Frame} {callers : List Frame}
    (hs : s.frames = frame :: callers) (g : CallGraph) (site : Name) :
    s.markCall g site = if g.isUnresolved frame.inst site then { s with degraded := true } else s := by
  simp only [State.markCall, hs]

section Lookup

variable (g : CallGraph) {caller caller' : Name} (h : caller.canonical = caller'.canonical)

include h

theorem isUnresolved_congr (site : Name) : g.isUnresolved caller site = g.isUnresolved caller' site := by
  have hp : CallGraph.samePlace (caller, site) = CallGraph.samePlace (caller', site) := by
    funext place
    simp only [CallGraph.samePlace, Name.same_congr h rfl]
  rw [CallGraph.isUnresolved, CallGraph.isUnresolved, hp]

theorem callees_congr (site : Name) : g.callees caller site = g.callees caller' site := by
  have hp : ∀ place, CallGraph.samePlace place (caller, site) = CallGraph.samePlace place (caller', site) := by
    intro place
    simp only [CallGraph.samePlace, Name.same_congr rfl h]
  simp only [CallGraph.callees, hp]

theorem instance?_congr : g.instance? caller = g.instance? caller' := by
  simp only [CallGraph.instance?, Name.same_congr rfl h]

end Lookup

/-! ### States -/

structure Alike (s t : State) : Prop where
  frames : s.frames.map Frame.canonical = t.frames.map Frame.canonical
  held : s.held.map Held.canonical = t.held.map Held.canonical
  events : s.events.map Event.canonical = t.events.map Event.canonical
  visits : s.visits.map visitKey = t.visits.map visitKey
  nextFrame : s.nextFrame = t.nextFrame
  degraded : s.degraded = t.degraded

theorem alike_iff {s t : State} : Alike s t ↔ s.key = t.key ∧ s.nextFrame = t.nextFrame := by
  constructor
  · rintro ⟨hf, hh, he, hv, hn, hd⟩
    refine ⟨?_, hn⟩
    simp only [State.key, Key.mk.injEq]
    exact ⟨hf, hh, he, hv, hd⟩
  · rintro ⟨hk, hn⟩
    simp only [State.key, Key.mk.injEq] at hk
    obtain ⟨hf, hh, he, hv, hd⟩ := hk
    exact ⟨hf, hh, he, hv, hn, hd⟩

namespace Alike

theorem refl (s : State) : Alike s s :=
  ⟨rfl, rfl, rfl, rfl, rfl, rfl⟩

variable {s t : State}

theorem length_events (h : Alike s t) : s.events.length = t.events.length := by
  simpa using congrArg List.length h.events

theorem chain (h : Alike s t) : s.chain.map Json.canonical = t.chain.map Json.canonical := by
  have hi := congrArg (fun fs => (fs.map Frame.inst).reverse) h.frames
  simpa [State.chain, Frame.canonical, Function.comp_def] using hi

theorem degrade (h : Alike s t) : Alike { s with degraded := true } { t with degraded := true } :=
  ⟨h.frames, h.held, h.events, h.visits, h.nextFrame, rfl⟩

theorem acquire (h : Alike s t) {frame frame' : Frame} (hf : frame.canonical = frame'.canonical)
    (guard : Name) (lock : Lock) (kind : GuardKind) (location : Location) (raii : Json) :
    Alike (s.acquire frame guard lock kind location raii)
      (t.acquire frame' guard lock kind location raii) := by
  obtain ⟨hinst, _, hnumber, _⟩ := Frame.canonical_eq_iff.mp hf
  refine ⟨h.frames, ?_, ?_, h.visits, h.nextFrame, h.degraded⟩
  · simp [State.acquire, h.held, hnumber, h.length_events]
  · have he : (s.acquisition frame guard lock kind location).canonical =
        (t.acquisition frame' guard lock kind location).canonical :=
      event_canonical_eq_iff.mpr ⟨rfl, rfl, rfl, rfl, hinst, rfl, h.chain, rfl,
        congrArg Int.ofNat hnumber⟩
    simp [State.acquire, h.events, he]

theorem release (h : Alike s t) {frame frame' : Frame} (hf : frame.canonical = frame'.canonical)
    {k k' : Held} (hk : k.canonical = k'.canonical) (location : Location) :
    Alike (s.release frame k location) (t.release frame' k' location) := by
  obtain ⟨hinst, _, hnumber, _⟩ := Frame.canonical_eq_iff.mp hf
  obtain ⟨_, _, hindex, _⟩ := Held.canonical_eq_iff.mp hk
  have hget : (s.events[k.index]?).map Event.canonical = (t.events[k'.index]?).map Event.canonical := by
    rw [← List.getElem?_map, ← List.getElem?_map, h.events, hindex]
  unfold State.release
  obtain ⟨hs, ht⟩ | ⟨e, e', hs, ht, he⟩ := option_map_eq_cases hget
  · simp only [hs, ht]
    exact h
  · simp only [hs, ht]
    obtain ⟨_, hkind, hlock, _, _, hguard, _⟩ := event_canonical_eq_iff.mp he
    refine ⟨h.frames, ?_, ?_, h.visits, h.nextFrame, h.degraded⟩
    · refine map_eraseP_congr ?_ h.held
      intro a b hab
      rw [(Held.canonical_eq_iff.mp hab).2.2.1, hindex]
    · have hending : (s.ending frame e k.index location).canonical =
          (t.ending frame' e' k'.index location).canonical :=
        event_canonical_eq_iff.mpr ⟨rfl, hkind, hlock, rfl, hinst, hguard, h.chain,
          by rw [State.ending, State.ending, hindex], congrArg Int.ofNat hnumber⟩
      simp [h.events, hending]

theorem rebind (h : Alike s t) {k k' : Held} (hk : k.canonical = k'.canonical) (frame : Nat)
    {guard guard' : Name} (hg : guard.canonical = guard'.canonical) :
    Alike (s.rebind k frame guard) (t.rebind k' frame guard') := by
  have hindex := (Held.canonical_eq_iff.mp hk).2.2.1
  refine ⟨h.frames, ?_, h.events, h.visits, h.nextFrame, h.degraded⟩
  refine map_map_congr ?_ h.held
  intro a b hab
  obtain ⟨hf, hgu, hi, hr⟩ := Held.canonical_eq_iff.mp hab
  rw [hi, hindex]
  split
  · exact Held.canonical_eq_iff.mpr ⟨rfl, hg, rfl, hr⟩
  · exact hab

theorem findHeld (h : Alike s t) (frame : Nat) (guard : Name) :
    (s.findHeld frame guard).map Held.canonical = (t.findHeld frame guard).map Held.canonical := by
  have hr : s.held.reverse.map Held.canonical = t.held.reverse.map Held.canonical := by
    rw [List.map_reverse, h.held, List.map_reverse]
  have hown := map_find?_congr (f := Held.canonical)
    (p := fun k => k.frame == frame && k.guard.same guard)
    (q := fun k => k.frame == frame && k.guard.same guard) (by
      intro a b hab
      obtain ⟨hf, hg, _, _⟩ := Held.canonical_eq_iff.mp hab
      rw [hf, Name.same_congr hg rfl]) hr
  have hmanual := map_find?_congr (f := Held.canonical)
    (p := fun k => !k.raii.truthy && k.guard.equals guard)
    (q := fun k => !k.raii.truthy && k.guard.equals guard) (by
      intro a b hab
      obtain ⟨_, hg, _, hraii⟩ := Held.canonical_eq_iff.mp hab
      rw [Name.truthy_congr hraii, Name.equals_congr hg rfl]) hr
  unfold State.findHeld
  obtain ⟨hs, ht⟩ | ⟨k, k', hs, ht, hk⟩ := option_map_eq_cases hown
  · simp only [hs, ht]
    exact hmanual
  · simp only [hs, ht]
    exact congrArg some hk

/-- Guards that are alike, dealt with one after the other, leave states that are alike. -/
theorem foldl {f f' : State → Held → State} {l l' : List Held}
    (hf : ∀ s t k k', Alike s t → k.canonical = k'.canonical → Alike (f s k) (f' t k'))
    (hl : l.map Held.canonical = l'.map Held.canonical) (h : Alike s t) :
    Alike (l.foldl f s) (l'.foldl f' t) := by
  induction forall₂_of_map_eq hl generalizing s t with
  | nil => exact h
  | cons hk _ ih =>
    have hfold := ih (List.cons.inj hl).2 (hf s t _ _ h hk)
    exact hfold

theorem filter_held (h : Alike s t) {p q : Held → Bool}
    (hp : ∀ a b, a.canonical = b.canonical → p a = q b) :
    (s.held.reverse.filter p).map Held.canonical = (t.held.reverse.filter q).map Held.canonical := by
  refine map_filter_congr hp ?_
  rw [List.map_reverse, h.held, List.map_reverse]

/-- The call stacks are both empty, or their tops and rests agree. -/
theorem stack (h : Alike s t) : (s.frames = [] ∧ t.frames = []) ∨
    ∃ frame frame' callers callers', s.frames = frame :: callers ∧ t.frames = frame' :: callers' ∧
      frame.canonical = frame'.canonical ∧
      callers.map Frame.canonical = callers'.map Frame.canonical := by
  have hf := h.frames
  generalize s.frames = fs, t.frames = gs at hf
  cases forall₂_of_map_eq hf with
  | nil => exact .inl ⟨rfl, rfl⟩
  | cons hframe _ => exact .inr ⟨_, _, _, _, rfl, rfl, hframe, (List.cons.inj hf).2⟩

theorem apply (h : Alike s t) (statement : Statement) :
    Alike (s.apply statement) (t.apply statement) := by
  obtain ⟨hs, ht⟩ | ⟨frame, frame', callers, callers', hs, ht, hf, _⟩ := h.stack
  · simp only [State.apply, hs, ht]
    exact h
  · have hnumber := (Frame.canonical_eq_iff.mp hf).2.2.1
    cases statement with
    | acquire guard lock kind location raii =>
      simp only [State.apply, hs, ht]
      exact h.acquire hf guard lock kind location raii
    | release guard location =>
      have hfind := h.findHeld frame.number guard
      rw [apply_release hs, apply_release ht]
      rw [hnumber] at hfind ⊢
      obtain ⟨hsf, htf⟩ | ⟨k, k', hsf, htf, hk⟩ := option_map_eq_cases hfind
      · rw [hsf, htf]
        exact h.degrade
      · rw [hsf, htf]
        exact h.release hf hk location
    | scopeExit locals location =>
      simp only [State.apply, hs, ht]
      refine foldl (fun s t k k' hst hk => hst.release hf hk location) (h.filter_held ?_) h
      intro a b hab
      obtain ⟨hfr, hg, _, hraii⟩ := Held.canonical_eq_iff.mp hab
      have hany : a.guard.same = b.guard.same := funext fun n => Name.same_congr hg rfl
      rw [hfr, hnumber, Name.truthy_congr hraii, hany]

theorem run (h : Alike s t) (statements : List Statement) :
    Alike (s.run statements) (t.run statements) := by
  induction statements generalizing s t with
  | nil => exact h
  | cons statement rest ih => exact ih (h.apply statement)

theorem settle (h : Alike s t) {frame frame' : Frame} (hf : frame.canonical = frame'.canonical)
    {caller caller' : Option Frame} (hc : caller.map Frame.canonical = caller'.map Frame.canonical)
    (value : Name) (location : Location) {k k' : Held} (hk : k.canonical = k'.canonical) :
    Alike (State.settle frame caller value location s k)
      (State.settle frame' caller' value location t k') := by
  obtain ⟨_, hguard, _, hraii⟩ := Held.canonical_eq_iff.mp hk
  have hdrop : Alike (if k.raii.truthy then s.release frame k location else s)
      (if k'.raii.truthy then t.release frame' k' location else t) := by
    rw [Name.truthy_congr hraii]
    split
    · exact h.release hf hk location
    · exact h
  obtain ⟨rfl, rfl⟩ | ⟨c, c', rfl, rfl, hcc⟩ := option_map_eq_cases hc
  · exact hdrop
  · have hreturn := (Frame.canonical_eq_iff.mp hf).2.2.2
    have hnumber := (Frame.canonical_eq_iff.mp hcc).2.2.1
    simp only [State.settle]
    rw [Name.equals_congr hguard rfl, Name.truthy_congr hreturn, hnumber]
    split
    · exact h.rebind hk c'.number hreturn
    · exact hdrop

theorem leave (h : Alike s t) (value : Name) (location : Location) :
    Alike (s.leave value location) (t.leave value location) := by
  obtain ⟨hs, ht⟩ | ⟨frame, frame', callers, callers', hs, ht, hf, hcallers⟩ := h.stack
  · simp only [State.leave, hs, ht]
    exact h
  · have hnumber := (Frame.canonical_eq_iff.mp hf).2.2.1
    have hhead : callers.head?.map Frame.canonical = callers'.head?.map Frame.canonical := by
      rw [← List.head?_map, hcallers, List.head?_map]
    have hown := h.filter_held (p := fun k => k.frame == frame.number)
      (q := fun k => k.frame == frame'.number) (by
        intro a b hab
        rw [(Held.canonical_eq_iff.mp hab).1, hnumber])
    have hfold := foldl (fun s t k k' hst hk => hst.settle hf hhead value location hk) hown h
    simp only [State.leave, hs, ht]
    exact ⟨hcallers, hfold.held, hfold.events, hfold.visits, hfold.nextFrame, hfold.degraded⟩

/-! ### Jumps and calls -/

theorem enter (h : Alike s t) (block : Target) : Alike (s.enter block) (t.enter block) := by
  obtain ⟨hs, ht⟩ | ⟨frame, frame', callers, callers', hs, ht, hf, hcallers⟩ := h.stack
  · simp only [State.enter, hs, ht]
    exact h
  · obtain ⟨hinst, _, hnumber, hreturn⟩ := Frame.canonical_eq_iff.mp hf
    simp only [State.enter, hs, ht]
    refine ⟨?_, h.held, h.events, ?_, h.nextFrame, h.degraded⟩
    · rw [List.map_cons, List.map_cons, hcallers]
      exact congrArg (· :: _) (Frame.canonical_eq_iff.mpr ⟨hinst, rfl, hnumber, hreturn⟩)
    · rw [hnumber]
      exact enter_congr h.visits frame'.number block

theorem allowed (h : Alike s t) (options : Options) (targets : List Target) :
    s.allowed options targets = t.allowed options targets := by
  obtain ⟨hs, ht⟩ | ⟨frame, frame', callers, callers', hs, ht, hf, _⟩ := h.stack
  · simp only [State.allowed, hs, ht]
  · have hnumber := (Frame.canonical_eq_iff.mp hf).2.2.1
    simp only [State.allowed, hs, ht, hnumber, count_congr h.visits]

theorem jumps (h : Alike s t) (options : Options) (targets : List Target) :
    List.Forall₂ Alike (s.jumps options targets) (t.jumps options targets) := by
  simp only [State.jumps, h.allowed options targets, List.forall₂_map_left_iff,
    List.forall₂_map_right_iff]
  exact List.forall₂_same.mpr fun block _ => h.enter block

theorem markCall (h : Alike s t) (g : CallGraph) (site : Name) :
    Alike (s.markCall g site) (t.markCall g site) := by
  obtain ⟨hs, ht⟩ | ⟨frame, frame', callers, callers', hs, ht, hf, _⟩ := h.stack
  · simp only [State.markCall, hs, ht]
    exact h
  · have hinst := (Frame.canonical_eq_iff.mp hf).1
    rw [markCall_eq hs, markCall_eq ht, isUnresolved_congr g hinst]
    split
    · exact h.degrade
    · exact h

theorem canInline (h : Alike s t) (g : CallGraph) (options : Options) (callee : Name) :
    s.canInline g options callee = t.canInline g options callee := by
  have hdepth : s.frames.length = t.frames.length := by
    simpa using congrArg List.length h.frames
  have hactive : s.active callee = t.active callee := by
    refine countP_congr_map ?_ h.frames
    intro a b hab
    exact Name.equals_congr (Frame.canonical_eq_iff.mp hab).1 rfl
  simp only [State.canInline, hdepth, hactive]

theorem inlined (h : Alike s t) (g : CallGraph) (options : Options) (site : Name) :
    s.inlined g options site = t.inlined g options site := by
  obtain ⟨hs, ht⟩ | ⟨frame, frame', callers, callers', hs, ht, hf, _⟩ := h.stack
  · simp only [State.inlined, hs, ht]
  · have hinst := (Frame.canonical_eq_iff.mp hf).1
    have hinline : s.canInline g options = t.canInline g options := funext (h.canInline g options)
    simp only [State.inlined, hs, ht, hinline, callees_congr g hinst]

theorem push (h : Alike s t) (callee : Name) (target : Option Target) (destination : Name) :
    Alike (s.push callee target destination) (t.push callee target destination) := by
  obtain ⟨hs, ht⟩ | ⟨frame, frame', callers, callers', hs, ht, hf, hcallers⟩ := h.stack
  · simp only [State.push, hs, ht]
    exact h
  · obtain ⟨hinst, _, hnumber, hreturn⟩ := Frame.canonical_eq_iff.mp hf
    have hwaits : ({ frame with block := target } : Frame).canonical =
        ({ frame' with block := target } : Frame).canonical :=
      Frame.canonical_eq_iff.mpr ⟨hinst, rfl, hnumber, hreturn⟩
    simp only [State.push, hs, ht]
    refine ⟨?_, h.held, h.events, ?_, congrArg (· + 1) h.nextFrame, h.degraded⟩
    · simp only [List.map_cons, hwaits, hcallers, h.nextFrame]
    · rw [h.nextFrame, hnumber]
      refine enter_congr ?_ t.nextFrame (.int 0)
      cases target with
      | none => exact h.visits
      | some block => exact enter_congr h.visits frame'.number block

theorem calls (h : Alike s t) (g : CallGraph) (options : Options) (c : Call) :
    List.Forall₂ Alike (s.calls g options c) (t.calls g options c) := by
  simp only [State.calls, h.inlined g options c.site]
  split
  · exact h.jumps options c.target.toList
  · rw [List.forall₂_map_left_iff, List.forall₂_map_right_iff]
    exact List.forall₂_same.mpr fun callee _ => h.push callee c.target c.destination

end Alike

/-! ### Steps -/

inductive NextAlike : Next → Next → Prop
  | over {s t : State} (h : Alike s t) : NextAlike (.over s) (.over t)
  | returned {s t : State} (h : Alike s t) : NextAlike (.returned s) (.returned t)
  | onward {s t : State} {cs ds : List State} (h : Alike s t) (hc : List.Forall₂ Alike cs ds) :
    NextAlike (.onward s cs) (.onward t ds)

theorem canonical_of_index? {block : Target} {i : Int} (h : Target.index? block = some i) :
    block.canonical = .int i := by
  cases block <;> cases h <;> simp [Json.canonical]

theorem blockAt_eq_ok {g : CallGraph} {inst : Name} {block : Target} {b : Block}
    (h : blockAt g inst block = .ok b) :
    ∃ i body index, g.instance? inst = some i ∧ i.body = some body ∧
      Target.index? block = some index ∧ body.block? index = some b := by
  unfold blockAt at h
  split at h
  · cases h
  · rename_i i hi
    split at h
    · cases h
    · rename_i body hbody
      split at h
      · cases h
      · rename_i index hindex
        split at h
        · cases h
        · rename_i b' hb
          cases h
          exact ⟨i, body, index, hi, hbody, hindex, hb⟩

/-- Where both can be found, blocks named alike are one block. -/
theorem blockAt_congr {g : CallGraph} {inst inst' : Name} {block block' : Target} {b b' : Block}
    (hi : inst.canonical = inst'.canonical) (hb : block.canonical = block'.canonical)
    (h : blockAt g inst block = .ok b) (h' : blockAt g inst' block' = .ok b') : b = b' := by
  obtain ⟨i, body, index, h1, h2, h3, h4⟩ := blockAt_eq_ok h
  obtain ⟨i', body', index', h1', h2', h3', h4'⟩ := blockAt_eq_ok h'
  rw [instance?_congr g hi, h1'] at h1
  cases h1
  rw [h2'] at h2
  cases h2
  rw [canonical_of_index? h3, canonical_of_index? h3'] at hb
  cases hb
  rw [h4'] at h4
  cases h4
  rfl

theorem Alike.finish {s t : State} (h : Alike s t) {g : CallGraph} {options : Options}
    {terminator : Terminator} {m n : Next} (hs : s.finish g options terminator = .ok m)
    (ht : t.finish g options terminator = .ok n) : NextAlike m n := by
  obtain ⟨value, location, rfl, rfl⟩ | ⟨targets, rfl, rfl⟩ | ⟨c, rfl, rfl⟩ := finish_cases hs
  · cases ht
    exact .returned (h.leave value location)
  · obtain ⟨_, _, he, _⟩ | ⟨_, he, rfl⟩ | ⟨_, he, _⟩ := finish_cases ht <;> cases he
    exact .onward h (h.jumps options targets)
  · obtain ⟨_, _, he, _⟩ | ⟨_, he, _⟩ | ⟨_, he, rfl⟩ := finish_cases ht <;> cases he
    have hm := h.markCall g c.site
    exact .onward hm (hm.calls g options c)

/-- Steps from states that are alike come out alike, unless one of them fails. -/
theorem Alike.step {s t : State} (h : Alike s t) {g : CallGraph} {options : Options} {m n : Next}
    (hs : s.step g options = .ok m) (ht : t.step g options = .ok n) : NextAlike m n := by
  unfold State.step at hs ht
  obtain ⟨hsf, htf⟩ | ⟨frame, frame', callers, callers', hsf, htf, hf, _⟩ := h.stack
  · simp only [hsf] at hs
    simp only [htf] at ht
    cases hs
    cases ht
    exact .over h
  · obtain ⟨hinst, hblock, _, _⟩ := Frame.canonical_eq_iff.mp hf
    simp only [hsf] at hs
    simp only [htf] at ht
    obtain ⟨hb, hb'⟩ | ⟨block, block', hb, hb', hbb⟩ := option_map_eq_cases hblock
    · simp only [hb] at hs
      simp only [hb'] at ht
      cases hs
      cases ht
      exact .over h
    · simp only [hb] at hs
      simp only [hb'] at ht
      split at hs
      · cases hs
      · rename_i b hat
        split at ht
        · cases ht
        · rename_i b' hat'
          obtain rfl := blockAt_congr hinst hbb hat hat'
          exact (h.run b.statements).finish hs ht

end Walk

end LockAudit
