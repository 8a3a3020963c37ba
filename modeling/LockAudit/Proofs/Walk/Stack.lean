import LockAudit.Proofs.Program.Consistency
import LockAudit.Proofs.Walk.Congruence
import LockAudit.Proofs.Walk.Visits

/-! # The call stack along a walk

Statements leave the call stack and the counts of entries alone. A step ends the running activation, moves
it to another block, or lets it wait while a callee runs. Where all bodies are sound, every activation
stands at a block of its body.
-/

namespace LockAudit.Walk

/-! ### Effects that leave the stack alone -/

structure SameStack (s t : State) : Prop where
  frames : t.frames = s.frames
  visits : t.visits = s.visits
  next : t.nextFrame = s.nextFrame

theorem SameStack.refl (s : State) : SameStack s s :=
  ⟨rfl, rfl, rfl⟩

theorem SameStack.trans {s t u : State} (hst : SameStack s t) (htu : SameStack t u) : SameStack s u :=
  ⟨htu.frames.trans hst.frames, htu.visits.trans hst.visits, htu.next.trans hst.next⟩

theorem sameStack_release (s : State) (frame : Frame) (h : Held) (location : Location) :
    SameStack s (s.release frame h location) := by
  unfold State.release
  split
  · exact .refl s
  · exact ⟨rfl, rfl, rfl⟩

theorem sameStack_foldl {f : State → Held → State} (hf : ∀ s h, SameStack s (f s h)) (l : List Held)
    (s : State) : SameStack s (l.foldl f s) := by
  induction l generalizing s with
  | nil => exact .refl s
  | cons h l ih => exact (hf s h).trans (ih (f s h))

theorem sameStack_apply (s : State) (statement : Statement) : SameStack s (s.apply statement) := by
  unfold State.apply
  split
  · exact .refl s
  · split
    · exact ⟨rfl, rfl, rfl⟩
    · split
      · exact sameStack_release s _ _ _
      · exact ⟨rfl, rfl, rfl⟩
    · exact sameStack_foldl (fun t h => sameStack_release t _ h _) _ s

theorem sameStack_run (s : State) (statements : List Statement) : SameStack s (s.run statements) := by
  induction statements generalizing s with
  | nil => exact .refl s
  | cons st rest ih => exact (sameStack_apply s st).trans (ih (s.apply st))

theorem sameStack_markCall (g : CallGraph) (s : State) (site : Name) :
    SameStack s (s.markCall g site) := by
  unfold State.markCall
  split
  · exact .refl s
  · split
    · exact ⟨rfl, rfl, rfl⟩
    · exact .refl s

theorem sameStack_settle (frame : Frame) (caller : Option Frame) (value : Name) (location : Location)
    (s : State) (h : Held) : SameStack s (State.settle frame caller value location s h) := by
  have hdrop : SameStack s (if h.raii.truthy then s.release frame h location else s) := by
    split
    · exact sameStack_release s frame h location
    · exact .refl s
  cases caller with
  | none => exact hdrop
  | some c =>
    simp only [State.settle]
    split
    · exact ⟨rfl, rfl, rfl⟩
    · exact hdrop

/-! ### What a step does to the stack -/

def Visits.await (vs : Visits) (frame : Nat) : Option Target → Visits
  | none => vs
  | some t => vs.enter frame t

inductive Moves (g : CallGraph) (options : Options) (frame : Frame) (callers : List Frame)
    (vs : Visits) (next : Nat) (terminator : Terminator) : List Frame → Visits → Prop
  | ended : Moves g options frame callers vs next terminator callers vs
  | entered (t : Target) (ht : t ∈ terminator.successors)
    (hc : vs.count frame.number t < options.maxRevisits) :
    Moves g options frame callers vs next terminator ({ frame with block := some t } :: callers)
      (vs.enter frame.number t)
  | called (c : Call) (ht : terminator = .call c) (callee : Name) (i : Instance)
    (hi : g.instance? callee = some i) (hb : i.body.isSome)
    (hd : callers.length + 1 < options.maxDepth) :
    Moves g options frame callers vs next terminator
      ({ inst := callee, block := some (.int 0), number := next, returnTo := c.destination } ::
        { frame with block := c.target } :: callers)
      ((vs.await frame.number c.target).enter next (.int 0))

theorem moves_leave {g : CallGraph} {options : Options} {s : State} {frame : Frame}
    {callers : List Frame} (hs : s.frames = frame :: callers) (terminator : Terminator) (value : Name)
    (location : Location) :
    Moves g options frame callers s.visits s.nextFrame terminator (s.leave value location).frames
      (s.leave value location).visits := by
  have hv : (s.leave value location).visits = s.visits := by
    simp only [State.leave, hs]
    exact (sameStack_foldl (sameStack_settle frame callers.head? value location) _ s).visits
  have hf : (s.leave value location).frames = callers := by
    simp only [State.leave, hs]
  rw [hv, hf]
  exact .ended

theorem moves_jumps {g : CallGraph} {options : Options} {s t : State} {frame : Frame}
    {callers : List Frame} (hs : s.frames = frame :: callers) {terminator : Terminator}
    (h : t ∈ s.jumps options terminator.successors) :
    Moves g options frame callers s.visits s.nextFrame terminator t.frames t.visits := by
  obtain ⟨block, hb, rfl⟩ := List.mem_map.mp h
  simp only [State.allowed, hs, List.mem_filter, decide_eq_true_eq] at hb
  simp only [State.enter, hs]
  exact .entered block hb.1 hb.2

theorem push_frames {s : State} {frame : Frame} {callers : List Frame}
    (hs : s.frames = frame :: callers) (callee : Name) (target : Option Target) (destination : Name) :
    (s.push callee target destination).frames =
      { inst := callee, block := some (.int 0), number := s.nextFrame, returnTo := destination } ::
        { frame with block := target } :: callers := by
  simp only [State.push, hs]

theorem push_visits {s : State} {frame : Frame} {callers : List Frame}
    (hs : s.frames = frame :: callers) (callee : Name) (target : Option Target) (destination : Name) :
    (s.push callee target destination).visits =
      (s.visits.await frame.number target).enter s.nextFrame (.int 0) := by
  cases target <;> simp only [State.push, hs, Visits.await]

theorem moves_calls {g : CallGraph} {options : Options} {s t : State} {frame : Frame}
    {callers : List Frame} (hs : s.frames = frame :: callers) {c : Call}
    (h : t ∈ s.calls g options c) :
    Moves g options frame callers s.visits s.nextFrame (.call c) t.frames t.visits := by
  simp only [State.calls] at h
  split at h
  · exact moves_jumps hs h
  · obtain ⟨callee, hc, rfl⟩ := List.mem_map.mp h
    simp only [State.inlined, hs, List.mem_filter, State.canInline] at hc
    obtain ⟨_, hc⟩ := hc
    split at hc
    · cases hc
    · rename_i i hi
      simp only [Bool.and_eq_true, decide_eq_true_eq, List.length_cons] at hc
      rw [push_frames hs, push_visits hs]
      exact .called c rfl callee i hi hc.1.1 hc.1.2

/-- What a step of a walk does to the stack: the running activation has run a block, and its terminator
moves the stack. -/
theorem Follows.moves {g : CallGraph} {options : Options} {s t : State} (h : Follows g options s t) :
    ∃ frame callers block b, s.frames = frame :: callers ∧ frame.block = some block ∧
      blockAt g frame.inst block = .ok b ∧
      Moves g options frame callers s.visits s.nextFrame b.terminator t.frames t.visits := by
  cases h with
  | returned h =>
    obtain ⟨b, value, location, ⟨frame, callers, block, hs, hb, hat⟩, _, rfl⟩ := step_returned h
    have hrun := sameStack_run s b.statements
    refine ⟨frame, callers, block, b, hs, hb, hat, ?_⟩
    rw [← hrun.visits, ← hrun.next]
    exact moves_leave (hrun.frames.trans hs) b.terminator value location
  | onward h hc =>
    obtain ⟨b, ⟨frame, callers, block, hs, hb, hat⟩, ⟨targets, ht, rfl, rfl⟩ | ⟨c, ht, rfl, rfl⟩⟩ :=
      step_onward h
    · have hrun := sameStack_run s b.statements
      refine ⟨frame, callers, block, b, hs, hb, hat, ?_⟩
      rw [← hrun.visits, ← hrun.next, ht]
      exact moves_jumps (hrun.frames.trans hs) hc
    · have hrun := (sameStack_run s b.statements).trans (sameStack_markCall g _ c.site)
      refine ⟨frame, callers, block, b, hs, hb, hat, ?_⟩
      rw [← hrun.visits, ← hrun.next, ht]
      exact moves_calls (hrun.frames.trans hs) hc

/-! ### Activations stand in their bodies -/

def HasBody (g : CallGraph) (id : Name) : Prop :=
  ∃ i body, g.instance? id = some i ∧ i.body = some body

def Placed (g : CallGraph) (f : Frame) : Prop :=
  ∃ i body, g.instance? f.inst = some i ∧ i.body = some body ∧
    ∀ t, f.block = some t → Target.within? body.blocks.length t = some true

structure Located (g : CallGraph) (s : State) : Prop where
  placed : ∀ f ∈ s.frames, Placed g f
  ascending : s.visits.Ascending

theorem located_start {g : CallGraph} (hg : g.Sound) {root : Name} (hroot : HasBody g root) :
    Located g (.start root) := by
  obtain ⟨i, body, hi, hb⟩ := hroot
  have hpos := (hg i (CallGraph.mem_of_instance? hi) body hb).nonempty
  refine ⟨?_, ?_, List.pairwise_singleton _ _⟩
  · intro f hf
    obtain rfl := List.mem_singleton.mp hf
    refine ⟨i, body, hi, hb, ?_⟩
    rintro t ⟨⟩
    exact Target.within?_zero hpos
  · intro v hv
    obtain rfl := List.mem_singleton.mp hv
    rfl

/-- The targets of a block that an activation runs lie in its body. -/
theorem inside_of_blockAt {g : CallGraph} (hg : g.Sound) {inst : Name} {block : Target} {b : Block}
    (hat : blockAt g inst block = .ok b) {i : Instance} {body : Body} (hi : g.instance? inst = some i)
    (hb : i.body = some body) {t : Target} (ht : t ∈ b.terminator.successors) :
    Target.within? body.blocks.length t = some true := by
  obtain ⟨i', body', index, hi', hb', _, hblock⟩ := blockAt_eq_ok hat
  obtain rfl := Option.some.inj (hi.symm.trans hi')
  obtain rfl := Option.some.inj (hb.symm.trans hb')
  exact (hg i (CallGraph.mem_of_instance? hi) body hb).inside b (Body.mem_of_block? hblock) t ht

theorem Visits.Ascending.await {vs : Visits} (h : vs.Ascending) (frame : Nat) {target : Option Target}
    (ht : ∀ t, target = some t → Name.isKey t = true) : (vs.await frame target).Ascending := by
  cases target with
  | none => exact h
  | some t => exact h.enter (ht t rfl) frame

theorem Visits.Ascending.count_await {vs : Visits} (hasc : vs.Ascending) (frame : Nat) {target : Option Target}
    (hkey : ∀ t, target = some t → Name.isKey t = true) (f : Nat) (b : Target) :
    (vs.await frame target).count f b =
      vs.count f b + if frame = f ∧ ∃ t, target = some t ∧ Name.same t b = true then 1 else 0 := by
  cases target with
  | none => simp [Visits.await]
  | some t =>
    rw [Visits.await, hasc.count_enter (hkey t rfl)]
    simp [Visits.Counts]

/-- A step of a sound graph leads to a block that is there. -/
theorem Follows.located {g : CallGraph} (hg : g.Sound) {options : Options} {s t : State}
    (h : Follows g options s t) (hs : Located g s) : Located g t := by
  obtain ⟨hplaced, hasc⟩ := hs
  obtain ⟨frame, callers, block, b, hf, _, hat, hmoves⟩ := h.moves
  rw [hf] at hplaced
  obtain ⟨⟨i, body, hi, hb, _⟩, hcallers⟩ := List.forall_mem_cons.mp hplaced
  have hinside : ∀ t ∈ b.terminator.successors, Target.within? body.blocks.length t = some true :=
    fun t ht => inside_of_blockAt hg hat hi hb ht
  generalize ht : t.frames = frames, hv : t.visits = visits at hmoves
  cases hmoves with
  | ended => exact ⟨ht ▸ hcallers, hv ▸ hasc⟩
  | entered target hmem _ =>
    have hw := hinside target hmem
    refine ⟨?_, hv ▸ hasc.enter (Target.isKey_of_within? hw) frame.number⟩
    rw [ht]
    refine List.forall_mem_cons.mpr ⟨⟨i, body, hi, hb, ?_⟩, hcallers⟩
    rintro _ ⟨⟩
    exact hw
  | called c hterm callee j hj hjb _ =>
    obtain ⟨body', hb'⟩ := Option.isSome_iff_exists.mp hjb
    have hpos := (hg j (CallGraph.mem_of_instance? hj) body' hb').nonempty
    have hw : ∀ target, c.target = some target →
        Target.within? body.blocks.length target = some true := by
      intro target htarget
      refine hinside target ?_
      simp [hterm, Terminator.successors, htarget]
    have hkey : ∀ target, c.target = some target → Name.isKey target = true :=
      fun target htarget => Target.isKey_of_within? (hw target htarget)
    refine ⟨?_, hv ▸ (hasc.await frame.number hkey).enter rfl s.nextFrame⟩
    rw [ht]
    refine List.forall_mem_cons.mpr ⟨⟨j, body', hj, hb', ?_⟩, ?_⟩
    · rintro _ ⟨⟩
      exact Target.within?_zero hpos
    · exact List.forall_mem_cons.mpr ⟨⟨i, body, hi, hb, hw⟩, hcallers⟩

theorem Reaches.located {g : CallGraph} (hg : g.Sound) {options : Options} {root : Name}
    (hroot : HasBody g root) {s : State} (h : Reaches g options root s) : Located g s := by
  induction h with
  | refl => exact located_start hg hroot
  | tail _ hf ih => exact hf.located hg ih

end LockAudit.Walk
