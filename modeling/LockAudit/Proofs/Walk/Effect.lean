import LockAudit.Proofs.Detection.Replay
import LockAudit.Walk.Step
import Mathlib.Logic.Relation

/-! # The single effects of a walk

Every step of a walk, whether or not it follows a body, is made up of a few single effects: a guard is
acquired, released or handed over, the state becomes degraded, and the call stack changes. What each
single effect preserves therefore holds in every state that steps can lead to.
-/

namespace LockAudit.Walk

/-- A step with any statement, any return, any jump or any call. A call first marks the state, which is
also how the state stays when nothing follows the call. -/
inductive Step (g : CallGraph) (options : Options) : State → State → Prop
  | apply (s : State) (statement : Statement) : Step g options s (s.apply statement)
  | leave (s : State) (value : Name) (location : Location) :
    Step g options s (s.leave value location)
  | jump {s t : State} {targets : List Target} (h : t ∈ s.jumps options targets) :
    Step g options s t
  | mark (s : State) (site : Name) : Step g options s (s.markCall g site)
  | call {s t : State} {c : Call} (h : t ∈ (s.markCall g c.site).calls g options c) :
    Step g options s t

def Reachable (g : CallGraph) (options : Options) (root : Name) (s : State) : Prop :=
  Relation.ReflTransGen (Step g options) (.start root) s

theorem run_reachable {g : CallGraph} {options : Options} {root : Name} {s : State}
    (h : Reachable g options root s) (statements : List Statement) :
    Reachable g options root (s.run statements) := by
  induction statements generalizing s with
  | nil => exact h
  | cons st rest ih => exact ih (h.tail (.apply s st))

inductive Effect : State → State → Prop
  | acquire {s : State} {frame : Frame} (top : s.frames.head? = some frame) (guard : Name)
    (lock : Lock) (kind : GuardKind) (location : Location) (raii : Json) :
    Effect s (s.acquire frame guard lock kind location raii)
  | release {s : State} {frame : Frame} {h : Held} (top : s.frames.head? = some frame)
    (held : h ∈ s.held) (location : Location) : Effect s (s.release frame h location)
  | rebind {s : State} {h : Held} (held : h ∈ s.held) (frame : Nat) (guard : Name) :
    Effect s (s.rebind h frame guard)
  | degrade (s : State) : Effect s { s with degraded := true }
  | pop (s : State) : Effect s { s with frames := s.frames.tail }
  | enter (s : State) (block : Target) : Effect s (s.enter block)
  | push (s : State) (callee : Name) (target : Option Target) (destination : Name) :
    Effect s (s.push callee target destination)

abbrev Effects : State → State → Prop :=
  Relation.ReflTransGen Effect

/-- What every single effect preserves is preserved by effects one after the other. -/
theorem Effects.preserve {P : State → Prop} (hP : ∀ s t, Effect s t → P s → P t) {s t : State}
    (h : Effects s t) (hs : P s) : P t := by
  induction h with
  | refl => exact hs
  | tail _ he ih => exact hP _ _ he ih

/-! ### Guards that are dropped or handed over -/

/-- No two guards that are held have the same acquisition. -/
def HeldApart (s : State) : Prop :=
  (s.held.map Held.index).Nodup

theorem release_frames (s : State) (frame : Frame) (h : Held) (location : Location) :
    (s.release frame h location).frames = s.frames := by
  unfold State.release
  split <;> rfl

theorem release_held (s : State) (frame : Frame) (h : Held) (location : Location) :
    (s.release frame h location).held = s.held ∨
      (s.release frame h location).held = s.held.eraseP fun k => k.index == h.index := by
  unfold State.release
  split
  · exact .inl rfl
  · exact .inr rfl

theorem rebind_indices (s : State) (h : Held) (frame : Nat) (guard : Name) :
    (s.rebind h frame guard).held.map Held.index = s.held.map Held.index := by
  simp only [State.rebind, List.map_map]
  apply List.map_congr_left
  intro k _
  simp only [Function.comp_apply]
  split <;> rfl

/-- From `s` to `t` the guard `h` is dealt with by single effects, and no other guard is touched. -/
structure DealtWith (h : Held) (s t : State) : Prop where
  effects : Effects s t
  frames : t.frames = s.frames
  apart : HeldApart t
  others : ∀ k ∈ s.held, k.index ≠ h.index → k ∈ t.held

theorem dealtWith_release {s : State} {frame : Frame} {h : Held} (top : s.frames.head? = some frame)
    (ha : HeldApart s) (hh : h ∈ s.held) (location : Location) :
    DealtWith h s (s.release frame h location) := by
  have hheld : HeldApart (s.release frame h location) ∧
      ∀ k ∈ s.held, k.index ≠ h.index → k ∈ (s.release frame h location).held := by
    rcases release_held s frame h location with he | he
    · rw [HeldApart, he]
      exact ⟨ha, fun k hk _ => hk⟩
    · rw [HeldApart, he, map_eraseP_key]
      exact ⟨ha.erase _, fun k hk hne => (mem_eraseP_key ha _ k).mpr ⟨hk, hne⟩⟩
  exact ⟨.single (.release top hh location), release_frames .., hheld.1, hheld.2⟩

theorem dealtWith_rebind {s : State} {h : Held} (ha : HeldApart s) (hh : h ∈ s.held) (frame : Nat)
    (guard : Name) : DealtWith h s (s.rebind h frame guard) := by
  refine ⟨.single (.rebind hh frame guard), rfl, ?_, ?_⟩
  · rw [HeldApart, rebind_indices]
    exact ha
  · intro k hk hne
    refine List.mem_map.mpr ⟨k, hk, ?_⟩
    simp [hne]

theorem dealtWith_settle {s : State} {frame : Frame} {h : Held} (top : s.frames.head? = some frame)
    (ha : HeldApart s) (hh : h ∈ s.held) (caller : Option Frame) (value : Name) (location : Location) :
    DealtWith h s (State.settle frame caller value location s h) := by
  have hdrop : DealtWith h s (if h.raii.truthy then s.release frame h location else s) := by
    split
    · exact dealtWith_release top ha hh location
    · exact ⟨.refl, rfl, ha, fun k hk _ => hk⟩
  cases caller with
  | none => exact hdrop
  | some c =>
    simp only [State.settle]
    split
    · exact dealtWith_rebind ha hh c.number frame.returnTo
    · exact hdrop

/-- Guards of a list that are all held are dealt with one after the other. -/
theorem effects_foldl {f : State → Held → State} {frames : List Frame}
    (hf : ∀ s h, s.frames = frames → HeldApart s → h ∈ s.held → DealtWith h s (f s h))
    (l : List Held) {s : State} (hs : s.frames = frames) (ha : HeldApart s)
    (hl : (l.map Held.index).Nodup) (hm : ∀ h ∈ l, h ∈ s.held) :
    Effects s (l.foldl f s) ∧ (l.foldl f s).frames = frames := by
  induction l generalizing s with
  | nil => exact ⟨.refl, hs⟩
  | cons h l ih =>
    have hd := hf s h hs ha (hm h List.mem_cons_self)
    obtain ⟨hn, hl⟩ := List.nodup_cons.mp hl
    have hrest : ∀ k ∈ l, k ∈ (f s h).held := by
      intro k hkl
      refine hd.others k (hm k (List.mem_cons_of_mem _ hkl)) ?_
      intro hi
      exact hn (hi ▸ List.mem_map_of_mem hkl)
    obtain ⟨hes, hfs⟩ := ih (hd.frames.trans hs) hd.apart hl hrest
    exact ⟨hd.effects.trans hes, hfs⟩

theorem HeldApart.filter_reverse {s : State} (ha : HeldApart s) (p : Held → Bool) :
    ((s.held.reverse.filter p).map Held.index).Nodup := by
  have hr : (s.held.reverse.map Held.index).Nodup := by
    rw [List.map_reverse]
    exact List.nodup_reverse.mpr ha
  exact hr.sublist (List.filter_sublist.map _)

/-! ### Every step is made up of effects -/

theorem findHeld_mem {s : State} {frame : Nat} {guard : Name} {h : Held}
    (hf : s.findHeld frame guard = some h) : h ∈ s.held := by
  unfold State.findHeld at hf
  split at hf
  · rename_i k hk
    cases hf
    exact List.mem_reverse.mp (List.mem_of_find?_eq_some hk)
  · exact List.mem_reverse.mp (List.mem_of_find?_eq_some hf)

/-- A statement acts by single effects, each on one guard. -/
theorem apply_effects {s : State} (ha : HeldApart s) (statement : Statement) :
    Effects s (s.apply statement) := by
  unfold State.apply
  split
  · exact .refl
  · rename_i frame callers hs
    have top : s.frames.head? = some frame := by rw [hs]; rfl
    cases statement with
    | acquire guard lock kind location raii => exact .single (.acquire top guard lock kind location raii)
    | release guard location =>
      dsimp only
      split
      · rename_i h hh
        exact .single (.release top (findHeld_mem hh) location)
      · exact .single (.degrade s)
    | scopeExit locals location =>
      refine (effects_foldl ?_ _ hs ha (ha.filter_reverse _) ?_).1
      · intro t h ht hta hh
        exact dealtWith_release (by rw [ht]; rfl) hta hh location
      · intro h hh
        exact List.mem_reverse.mp (List.mem_filter.mp hh).1

theorem leave_effects {s : State} (ha : HeldApart s) (value : Name) (location : Location) :
    Effects s (s.leave value location) := by
  unfold State.leave
  split
  · exact .refl
  · rename_i frame callers hs
    have hfold := effects_foldl (f := State.settle frame callers.head? value location)
      (fun t h ht hta hh => dealtWith_settle (by rw [ht]; rfl) hta hh _ value location)
      (s.held.reverse.filter fun h => h.frame == frame.number) hs ha (ha.filter_reverse _)
      (fun h hh => List.mem_reverse.mp (List.mem_filter.mp hh).1)
    have hpop := Effect.pop ((s.held.reverse.filter fun h => h.frame == frame.number).foldl
      (State.settle frame callers.head? value location) s)
    rw [hfold.2] at hpop
    exact hfold.1.tail hpop

theorem jumps_effects {options : Options} {s t : State} {targets : List Target}
    (h : t ∈ s.jumps options targets) : Effects s t := by
  obtain ⟨block, _, rfl⟩ := List.mem_map.mp h
  exact .single (.enter s block)

theorem markCall_effects (g : CallGraph) (s : State) (site : Name) :
    Effects s (s.markCall g site) := by
  unfold State.markCall
  split
  · exact .refl
  · split
    · exact .single (.degrade s)
    · exact .refl

theorem calls_effects {g : CallGraph} {options : Options} {s t : State} {c : Call}
    (h : t ∈ s.calls g options c) : Effects s t := by
  simp only [State.calls] at h
  split at h
  · exact jumps_effects h
  · obtain ⟨callee, _, rfl⟩ := List.mem_map.mp h
    exact .single (.push s callee c.target c.destination)

theorem Step.effects {g : CallGraph} {options : Options} {s t : State} (h : Step g options s t)
    (ha : HeldApart s) : Effects s t := by
  cases h with
  | apply statement => exact apply_effects ha statement
  | leave value location => exact leave_effects ha value location
  | jump h => exact jumps_effects h
  | mark site => exact markCall_effects g s site
  | call h => exact (markCall_effects g s _).trans (calls_effects h)

end LockAudit.Walk
