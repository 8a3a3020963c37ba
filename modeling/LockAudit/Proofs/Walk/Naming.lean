import LockAudit.Proofs.Detection.Answer
import LockAudit.Proofs.Walk.Activations
import LockAudit.Proofs.Walk.BranchOrder
import LockAudit.Proofs.Walk.Lookups

/-! # Paths of programs with texts for names

Where all instances and all locks of a program are named by texts, so are those on the paths that are
enumerated, and detection has an answer on them.
-/

namespace LockAudit

def Statement.isNamed : Statement → Bool
  | acquire _ lock _ _ _ => Ranked.isPlain lock.aliasClass
  | release _ _ => true
  | scopeExit _ _ => true

def Instance.locksNamed (i : Instance) : Bool :=
  i.body.all fun body => body.blocks.all fun b => b.statements.all Statement.isNamed

namespace Walk

variable {g : CallGraph} {instances : List Instance} {options : Options} {root : Name} {s t : State}

theorem isText_of_instance? (htexts : ∀ i ∈ g.instances, i.id.isText = true) {id : Name} {i : Instance}
    (h : g.instance? id = some i) : id.isText = true := by
  have hsame : i.id.canonical = id.canonical := Name.same_iff.mp (CallGraph.same_of_instance? h)
  rw [← Name.isText_canonical, ← hsame, Name.isText_canonical]
  exact htexts i (CallGraph.mem_of_instance? h)

/-! ### Chains of calls -/

def StackNamed (s : State) : Prop :=
  ∀ f ∈ s.frames, f.inst.isText = true

theorem Moves.stackNamed {frame : Frame} {callers frames : List Frame} {vs vs' : Visits} {next : Nat}
    {terminator : Terminator} (h : Moves g options frame callers vs next terminator frames vs')
    (htexts : ∀ i ∈ g.instances, i.id.isText = true)
    (hs : ∀ f ∈ frame :: callers, f.inst.isText = true) : ∀ f ∈ frames, f.inst.isText = true := by
  obtain ⟨hframe, hcallers⟩ := List.forall_mem_cons.mp hs
  cases h with
  | ended => exact hcallers
  | entered => exact List.forall_mem_cons.mpr ⟨hframe, hcallers⟩
  | called c _ callee i hi =>
    exact List.forall_mem_cons.mpr
      ⟨isText_of_instance? htexts hi, List.forall_mem_cons.mpr ⟨hframe, hcallers⟩⟩

/-- A call enters only what the graph has an instance of, so names on the stack stay texts. -/
theorem Step.stackNamed (h : Step g options s t) (htexts : ∀ i ∈ g.instances, i.id.isText = true)
    (hs : StackNamed s) : StackNamed t := by
  unfold StackNamed
  cases h with
  | apply statement => exact (sameStack_apply s statement).frames ▸ hs
  | mark site => exact (sameStack_markCall g s site).frames ▸ hs
  | leave value location =>
    cases hf : s.frames with
    | nil => simp [State.leave, hf]
    | cons frame callers =>
      have hmoves : Moves g options frame callers s.visits s.nextFrame (.ret value location)
          (s.leave value location).frames _ := moves_leave hf _ value location
      exact hmoves.stackNamed htexts (hf ▸ hs)
  | jump h =>
    rename_i targets
    cases hf : s.frames with
    | nil => simp [State.jumps, State.allowed, hf] at h
    | cons frame callers =>
      have hmoves : Moves g options frame callers s.visits s.nextFrame (.goto targets) t.frames _ :=
        moves_jumps hf h
      exact hmoves.stackNamed htexts (hf ▸ hs)
  | call h =>
    rename_i c
    have hmark := (sameStack_markCall g s c.site).frames
    cases hf : s.frames with
    | nil =>
      rw [hf] at hmark
      simp [State.calls, State.inlined, State.jumps, State.allowed, hmark] at h
    | cons frame callers => exact (moves_calls (hmark.trans hf) h).stackNamed htexts (hf ▸ hs)

theorem Reachable.stackNamed (h : Reachable g options root s) (hroot : root.isText = true)
    (htexts : ∀ i ∈ g.instances, i.id.isText = true) : StackNamed s := by
  induction h with
  | refl => exact List.forall_mem_singleton.mpr hroot
  | tail _ hs ih => exact hs.stackNamed htexts ih

/-- Every chain of calls on a walk consists of texts. -/
theorem Reachable.isText_chain (h : Reachable g options root s) (hroot : root.isText = true)
    (htexts : ∀ i ∈ g.instances, i.id.isText = true) :
    ∀ e ∈ s.events, ∀ id ∈ e.chain, Name.isText id = true := by
  induction h with
  | refl => simp [State.start]
  | @tail s t hr hs ih =>
    obtain ⟨_, es, hevents, hes⟩ := hs.progresses (Reachable.tracked hr)
    rw [hevents]
    refine List.forall_mem_append.mpr ⟨ih, ?_⟩
    intro e he id hid
    obtain ⟨_, _, _, _, _, hchain⟩ := hes e he
    rw [hchain, ← chain_eq, State.chain, List.mem_reverse] at hid
    obtain ⟨f, hf, rfl⟩ := List.mem_map.mp hid
    exact Reachable.stackNamed hr hroot htexts f hf

/-! ### Locks -/

theorem isNamed_of_standsBefore (hnamed : ∀ i ∈ g.instances, i.locksNamed = true)
    {statement : Statement} (h : StandsBefore g options root s statement) :
    statement.isNamed = true := by
  obtain ⟨entry, b, before, after, _, ⟨frame, callers, block, _, _, hat⟩, hstatements, _⟩ := h
  obtain ⟨i, body, index, hi, hbody, _, hblock⟩ := blockAt_eq_ok hat
  have hall := hnamed i (CallGraph.mem_of_instance? hi)
  simp only [Instance.locksNamed, hbody, Option.all_some, List.all_eq_true] at hall
  refine hall b (Body.mem_of_block? hblock) statement ?_
  rw [hstatements]
  exact List.mem_append_right _ List.mem_cons_self

/-- Every lock on a walk has a plain class: releases name the locks of acquisitions, and these are those of
the statements. -/
theorem Pauses.isPlain_aliasClass (hnamed : ∀ i ∈ g.instances, i.locksNamed = true)
    (h : Pauses g options root s) : ∀ e ∈ s.events, Ranked.isPlain e.aliasClass = true := by
  have hacquired : ∀ (j : Nat) (e : Event), s.events[j]? = some e → e.op = .acquire →
      Ranked.isPlain e.aliasClass = true := by
    intro j e he hop
    obtain ⟨t, frame, _, guard, lock, kind, location, raii, hbefore, _, _, rfl, _⟩ := h.enacted j e he hop
    exact isNamed_of_standsBefore hnamed hbefore
  intro e he
  obtain ⟨i, hi⟩ := List.mem_iff_getElem?.mp he
  cases hop : e.op with
  | acquire => exact hacquired i e hi hop
  | release =>
    obtain ⟨j, a, _, _, ha, haop, _, hlock, _⟩ := h.reachable.tracked.matched.release i e hi hop
    have hclass := hacquired j a ha haop
    rwa [Event.aliasClass, ← hlock] at hclass

/-! ### Paths -/

theorem isText_of_explore {fuel : Nat} {e : Exploration} (h : explore g options fuel root = .ok e)
    (htexts : ∀ i ∈ g.instances, i.id.isText = true) : root.isText = true := by
  obtain ⟨i, hi⟩ := Option.isSome_iff_exists.mp (contains_of_explore h)
  exact isText_of_instance? htexts hi

/-- Paths that are enumerated from a root have an order. -/
theorem isPlain_of_explore {fuel : Nat} {e : Exploration} (h : explore g options fuel root = .ok e)
    (htexts : ∀ i ∈ g.instances, i.id.isText = true) : ∀ l ∈ e.paths, Ranked.isPlain l = true := by
  intro l hl
  obtain ⟨hroot, s, hs, hevents, _⟩ := explore_recorded h l hl
  have hrootText := isText_of_explore h htexts
  refine Bool.and_eq_true_iff.mpr ⟨?_, List.all_eq_true.mpr fun f hf => ?_⟩
  · rw [hroot]
    exact hrootText
  · rw [hevents] at hf
    exact List.all_eq_true.mpr (hs.reachable.isText_chain hrootText htexts f hf)

/-- Paths that are enumerated from a root have texts for names. -/
theorem textual_of_explore {fuel : Nat} {e : Exploration}
    (h : explore (.build instances) options fuel root = .ok e) (hroot : root.isText = true)
    (htexts : ∀ i ∈ instances, i.id.isText = true) (hnamed : ∀ i ∈ instances, i.locksNamed = true) :
    Detection.Textual e.paths := by
  intro l hl
  have hrecorded := explore_recordedAmong h hl
  obtain ⟨_, s, hs, hevents, _⟩ := explore_recorded h l hl
  have hnode : ∀ i ∈ (CallGraph.build instances).instances, i ∈ instances := fun i hi =>
    (orderOn_perm Instance.id instances).mem_iff.mp hi
  have hclasses : ∀ f ∈ l.events, Ranked.isPlain f.aliasClass = true := by
    rw [hevents]
    exact hs.isPlain_aliasClass fun i hi => hnamed i (hnode i hi)
  constructor
  · rw [LockPath.isKeyed, hrecorded.root, Name.isKey_of_isText hroot, hrecorded.keyed]
    rfl
  · rw [Detection.isPlain, isPlain_of_explore h (fun i hi => htexts i (hnode i hi)) l hl, Bool.true_and]
    exact List.all_eq_true.mpr hclasses

end Walk

end LockAudit
