import LockAudit.Proofs.Walk.Stack

/-! # Walks that meet no fault

Where the names of a program can be looked up and its jumps are whole numbers, the same holds of all that a
walk stores, and in a sound body no step fails.
-/

namespace LockAudit

/-! ### Programs whose names can be looked up -/

def Statement.isKeyed : Statement → Bool
  | acquire guard lock _ _ raii => guard.isKey && lock.names.all Name.isKey && Name.isKey raii
  | release _ _ => true
  | scopeExit _ _ => true

def Terminator.isKeyed (t : Terminator) : Bool :=
  (match t with
    | call c => c.destination.isKey
    | _ => true) && t.successors.all fun target => (Target.index? target).isSome

def Block.isKeyed (b : Block) : Bool :=
  b.statements.all Statement.isKeyed && b.terminator.isKeyed

def Instance.isKeyed (i : Instance) : Bool :=
  i.id.isKey && i.body.all fun body => body.blocks.all Block.isKeyed

def CallGraph.isKeyed (g : CallGraph) : Bool :=
  g.instances.all Instance.isKeyed

theorem Program.isKeyed_graph {p : Program} (h : p.instances.all Instance.isKeyed = true) :
    p.graph.isKeyed = true := by
  rw [CallGraph.isKeyed, List.all_eq_true]
  exact fun i hi => List.all_eq_true.mp h i (mem_graph.mp hi)

theorem CallGraph.isKey_of_instance? {g : CallGraph} (hg : g.isKeyed = true) {id : Name} {i : Instance}
    (h : g.instance? id = some i) : id.isKey = true := by
  have hi := List.all_eq_true.mp hg i (mem_of_instance? h)
  have hkey : i.id.isKey = true := (Bool.and_eq_true_iff.mp hi).1
  have hsame : i.id.canonical = id.canonical := Name.same_iff.mp (same_of_instance? h)
  rwa [← Name.isKey_canonical, ← hsame, Name.isKey_canonical]

namespace Walk

theorem isKeyed_of_blockAt {g : CallGraph} (hg : g.isKeyed = true) {inst : Name} {block : Target}
    {b : Block} (h : blockAt g inst block = .ok b) : b.isKeyed = true := by
  obtain ⟨i, body, index, hi, hb, _, hblock⟩ := blockAt_eq_ok h
  have hkeyed := (Bool.and_eq_true_iff.mp (List.all_eq_true.mp hg i (CallGraph.mem_of_instance? hi))).2
  rw [hb] at hkeyed
  exact List.all_eq_true.mp hkeyed b (Body.mem_of_block? hblock)

/-! ### States whose names can be looked up -/

structure Keyed (s : State) : Prop where
  frames : ∀ f ∈ s.frames, f.isKeyed = true
  blocks : ∀ f ∈ s.frames, ∀ t, f.block = some t → (Target.index? t).isSome = true
  held : ∀ h ∈ s.held, h.isKeyed = true
  events : ∀ e ∈ s.events, e.isKeyed = true

namespace Keyed

variable {s : State}

theorem isKeyed (hs : Keyed s) : s.isKeyed = true := by
  simp only [State.isKeyed, Bool.and_eq_true, List.all_eq_true]
  exact ⟨⟨hs.frames, hs.held⟩, hs.events⟩

theorem stack (hs : Keyed s) {frame : Frame} {callers : List Frame} (h : s.frames = frame :: callers) :
    frame.isKeyed = true ∧ (∀ f ∈ callers, f.isKeyed = true) ∧
      ∀ f ∈ callers, ∀ t, f.block = some t → (Target.index? t).isSome = true := by
  obtain ⟨hframes, hblocks, _, _⟩ := hs
  rw [h] at hframes hblocks
  obtain ⟨hf, hcallers⟩ := List.forall_mem_cons.mp hframes
  exact ⟨hf, hcallers, (List.forall_mem_cons.mp hblocks).2⟩

theorem chain (hs : Keyed s) : s.chain.all Name.isKey = true := by
  simp only [State.chain, List.all_reverse, List.all_map, List.all_eq_true, Function.comp_apply]
  exact fun f hf => (Bool.and_eq_true_iff.mp (hs.frames f hf)).1

theorem acquire (hs : Keyed s) {frame : Frame} (hf : frame.inst.isKey = true) {guard : Name}
    {lock : Lock} {kind : GuardKind} {location : Location} {raii : Json}
    (hst : (Statement.acquire guard lock kind location raii).isKeyed = true) :
    Keyed (s.acquire frame guard lock kind location raii) := by
  simp only [Statement.isKeyed, Bool.and_eq_true] at hst
  obtain ⟨⟨hguard, hlock⟩, hraii⟩ := hst
  refine ⟨hs.frames, hs.blocks, ?_, ?_⟩
  · refine List.forall_mem_append.mpr ⟨hs.held, ?_⟩
    simp [Held.isKeyed, hguard, hraii]
  · refine List.forall_mem_append.mpr ⟨hs.events, ?_⟩
    simp only [List.mem_singleton, forall_eq, Event.isKeyed, State.acquisition, hlock, hf, hguard,
      hs.chain, Bool.and_self]

theorem release (hs : Keyed s) {frame : Frame} (hf : frame.inst.isKey = true) (h : Held)
    (location : Location) : Keyed (s.release frame h location) := by
  unfold State.release
  split
  · exact hs
  · rename_i e he
    have hkeyed := hs.events e (List.mem_of_getElem? he)
    simp only [Event.isKeyed, Bool.and_eq_true] at hkeyed
    obtain ⟨⟨⟨hlock, _⟩, hguard⟩, _⟩ := hkeyed
    refine ⟨hs.frames, hs.blocks, fun k hk => hs.held k (List.mem_of_mem_eraseP hk), ?_⟩
    refine List.forall_mem_append.mpr ⟨hs.events, ?_⟩
    simp only [List.mem_singleton, forall_eq, Event.isKeyed, State.ending, hlock, hf, hguard, hs.chain,
      Bool.and_self]

theorem rebind (hs : Keyed s) (h : Held) (frame : Nat) {guard : Name} (hg : guard.isKey = true) :
    Keyed (s.rebind h frame guard) := by
  refine ⟨hs.frames, hs.blocks, ?_, hs.events⟩
  intro k hk
  obtain ⟨k', hk', rfl⟩ := List.mem_map.mp hk
  have hkeyed := hs.held k' hk'
  split
  · simp only [Held.isKeyed, Bool.and_eq_true] at hkeyed ⊢
    exact ⟨hg, hkeyed.2⟩
  · exact hkeyed

theorem foldl {f : State → Held → State} (hf : ∀ t h, Keyed t → Keyed (f t h)) (l : List Held)
    (hs : Keyed s) : Keyed (l.foldl f s) := by
  induction l generalizing s with
  | nil => exact hs
  | cons h l ih => exact ih (hf s h hs)

theorem apply (hs : Keyed s) {statement : Statement} (hst : statement.isKeyed = true) :
    Keyed (s.apply statement) := by
  unfold State.apply
  split
  · exact hs
  · rename_i frame callers hframes
    have hf : frame.inst.isKey = true := (Bool.and_eq_true_iff.mp (hs.stack hframes).1).1
    split
    · exact hs.acquire hf hst
    · split
      · exact hs.release hf _ _
      · exact ⟨hs.frames, hs.blocks, hs.held, hs.events⟩
    · exact hs.foldl (fun t h ht => ht.release hf h _) _

theorem run (hs : Keyed s) {statements : List Statement}
    (hst : statements.all Statement.isKeyed = true) : Keyed (s.run statements) := by
  induction statements generalizing s with
  | nil => exact hs
  | cons st rest ih =>
    simp only [List.all_cons, Bool.and_eq_true] at hst
    exact ih (hs.apply hst.1) hst.2

theorem markCall (hs : Keyed s) (g : CallGraph) (site : Name) : Keyed (s.markCall g site) := by
  unfold State.markCall
  split
  · exact hs
  · split
    · exact ⟨hs.frames, hs.blocks, hs.held, hs.events⟩
    · exact hs

theorem settle (hs : Keyed s) {frame : Frame} (hf : frame.isKeyed = true) (caller : Option Frame)
    (value : Name) (location : Location) (h : Held) :
    Keyed (State.settle frame caller value location s h) := by
  obtain ⟨hinst, hreturn⟩ := Bool.and_eq_true_iff.mp hf
  have hdrop : Keyed (if h.raii.truthy then s.release frame h location else s) := by
    split
    · exact hs.release hinst h location
    · exact hs
  cases caller with
  | none => exact hdrop
  | some c =>
    simp only [State.settle]
    split
    · exact hs.rebind h c.number hreturn
    · exact hdrop

theorem leave (hs : Keyed s) (value : Name) (location : Location) : Keyed (s.leave value location) := by
  unfold State.leave
  split
  · exact hs
  · rename_i frame callers hframes
    obtain ⟨hf, hcallers, hblocks⟩ := hs.stack hframes
    have hsettled := hs.foldl (fun t h ht => ht.settle hf callers.head? value location h)
      (s.held.reverse.filter fun h => h.frame == frame.number)
    exact ⟨hcallers, hblocks, hsettled.held, hsettled.events⟩

theorem enter (hs : Keyed s) {block : Target} (hb : (Target.index? block).isSome = true) :
    Keyed (s.enter block) := by
  unfold State.enter
  split
  · exact hs
  · rename_i frame callers hframes
    obtain ⟨hf, hcallers, hblocks⟩ := hs.stack hframes
    refine ⟨List.forall_mem_cons.mpr ⟨hf, hcallers⟩, ?_, hs.held, hs.events⟩
    refine List.forall_mem_cons.mpr ⟨?_, hblocks⟩
    rintro _ ⟨⟩
    exact hb

theorem push (hs : Keyed s) {callee : Name} (hc : callee.isKey = true) {target : Option Target}
    (ht : ∀ t, target = some t → (Target.index? t).isSome = true) {destination : Name}
    (hd : destination.isKey = true) : Keyed (s.push callee target destination) := by
  unfold State.push
  split
  · exact hs
  · rename_i frame callers hframes
    obtain ⟨hf, hcallers, hblocks⟩ := hs.stack hframes
    refine ⟨List.forall_mem_cons.mpr ⟨?_, List.forall_mem_cons.mpr ⟨hf, hcallers⟩⟩, ?_, hs.held,
      hs.events⟩
    · simp [Frame.isKeyed, hc, hd]
    · refine List.forall_mem_cons.mpr ⟨?_, List.forall_mem_cons.mpr ⟨ht, hblocks⟩⟩
      rintro _ ⟨⟩
      rfl

theorem jumps (hs : Keyed s) {options : Options} {targets : List Target}
    (ht : ∀ t ∈ targets, (Target.index? t).isSome = true) {c : State} (hc : c ∈ s.jumps options targets) :
    Keyed c := by
  obtain ⟨t, hm, rfl⟩ := List.mem_map.mp hc
  refine hs.enter (ht t ?_)
  unfold State.allowed at hm
  split at hm
  · cases hm
  · exact List.mem_of_mem_filter hm

theorem calls (hs : Keyed s) {g : CallGraph} (hg : g.isKeyed = true) {options : Options} {c : Call}
    (hc : (Terminator.call c).isKeyed = true) {t : State} (ht : t ∈ s.calls g options c) : Keyed t := by
  obtain ⟨hd, htargets⟩ := Bool.and_eq_true_iff.mp hc
  rw [List.all_eq_true] at htargets
  simp only [State.calls] at ht
  split at ht
  · exact hs.jumps htargets ht
  · obtain ⟨callee, hm, rfl⟩ := List.mem_map.mp ht
    have hcallee : callee.isKey = true := by
      unfold State.inlined at hm
      split at hm
      · cases hm
      · have hin := (List.mem_filter.mp hm).2
        unfold State.canInline at hin
        split at hin
        · cases hin
        · rename_i i hi
          exact CallGraph.isKey_of_instance? hg hi
    refine hs.push hcallee (fun t ht => htargets t ?_) hd
    simp [Terminator.successors, ht]

end Keyed

/-! ### Along a walk -/

variable {g : CallGraph} {options : Options}

theorem keyed_start {root : Name} (h : root.isKey = true) : Keyed (.start root) := by
  have hnull : Name.isKey .null = true := rfl
  constructor <;> simp [State.start, Frame.isKeyed, h, hnull, Target.index?]

theorem keyed_statements (hg : g.isKeyed = true) {s : State} (hs : Keyed s) {b : Block}
    (hb : AtBlock g s b) : Keyed (s.run b.statements) ∧ b.terminator.isKeyed = true := by
  obtain ⟨frame, callers, block, _, _, hat⟩ := hb
  obtain ⟨hst, ht⟩ := Bool.and_eq_true_iff.mp (isKeyed_of_blockAt hg hat)
  exact ⟨hs.run hst, ht⟩

theorem Follows.keyed (hg : g.isKeyed = true) {s t : State} (h : Follows g options s t)
    (hs : Keyed s) : Keyed t := by
  cases h with
  | returned h =>
    obtain ⟨b, value, location, hb, _, rfl⟩ := step_returned h
    exact (keyed_statements hg hs hb).1.leave value location
  | onward h hc =>
    obtain ⟨b, hb, ⟨targets, ht, rfl, rfl⟩ | ⟨c, ht, rfl, rfl⟩⟩ := step_onward h
    · obtain ⟨hrun, hterm⟩ := keyed_statements hg hs hb
      rw [ht] at hterm
      exact hrun.jumps (List.all_eq_true.mp (Bool.and_eq_true_iff.mp hterm).2) hc
    · obtain ⟨hrun, hterm⟩ := keyed_statements hg hs hb
      rw [ht] at hterm
      exact (hrun.markCall g c.site).calls hg hterm hc

theorem Reaches.keyed (hg : g.isKeyed = true) {root : Name} (hroot : root.isKey = true) {s : State}
    (h : Reaches g options root s) : Keyed s := by
  induction h with
  | refl => exact keyed_start hroot
  | tail _ hf ih => exact hf.keyed hg ih

theorem Pauses.keyed (hg : g.isKeyed = true) {root : Name} (hroot : root.isKey = true) {t : State}
    (h : Pauses g options root t) : Keyed t := by
  obtain ⟨s, hr, h | ⟨children, h⟩⟩ := h
  · obtain rfl := step_over h
    exact hr.keyed hg hroot
  · obtain ⟨b, hb, ⟨targets, _, rfl, _⟩ | ⟨c, _, rfl, _⟩⟩ := step_onward h
    · exact (keyed_statements hg (hr.keyed hg hroot) hb).1
    · exact (keyed_statements hg (hr.keyed hg hroot) hb).1.markCall g c.site

/-! ### Steps succeed -/

/-- An activation that is placed, with a whole number for its block, has that block. -/
theorem Placed.exists_block {f : Frame} (hp : Placed g f) {t : Target} (ht : f.block = some t)
    (hi : (Target.index? t).isSome = true) : ∃ b, blockAt g f.inst t = .ok b := by
  obtain ⟨i, body, hinst, hbody, hin⟩ := hp
  obtain ⟨k, hk⟩ := Option.isSome_iff_exists.mp hi
  obtain ⟨n, hn, rfl⟩ := Target.exists_lt_of_within? (hin t ht) hk
  refine ⟨body.blocks[n], ?_⟩
  simp only [blockAt, hinst, hbody, hk, Body.block?_ofNat, List.getElem?_eq_getElem hn]

/-- A terminator whose jumps are numbers has an effect. -/
theorem exists_finish (s : State) {terminator : Terminator}
    (h : terminator.successors.all Name.isNumber = true) :
    ∃ n, s.finish g options terminator = .ok n := by
  cases terminator with
  | ret value location => exact ⟨_, rfl⟩
  | goto targets =>
    simp only [Terminator.successors] at h
    exact ⟨_, by simp only [State.finish, State.jump, h, if_true]; rfl⟩
  | call c =>
    have hall : c.target.all Name.isNumber = true := by
      cases hc : c.target with
      | none => rfl
      | some t => simpa [Terminator.successors, hc] using h
    exact ⟨_, by simp only [State.finish, State.call, hall, if_true]; rfl⟩

/-- Where all activations are placed and their blocks have whole numbers, a step succeeds. -/
theorem Located.exists_step {s : State} (hl : Located g s) (hg : g.Sound)
    (hblocks : ∀ f ∈ s.frames, ∀ t, f.block = some t → (Target.index? t).isSome = true)
    (options : Options) : ∃ n, s.step g options = .ok n := by
  unfold State.step
  split
  · exact ⟨_, rfl⟩
  · rename_i frame callers hframes
    split
    · exact ⟨_, rfl⟩
    · rename_i block hblock
      have hmem : frame ∈ s.frames := by simp [hframes]
      have hp := hl.placed frame hmem
      obtain ⟨b, hat⟩ := hp.exists_block hblock (hblocks frame hmem block hblock)
      rw [hat]
      refine exists_finish _ (List.all_eq_true.mpr fun t ht => ?_)
      obtain ⟨i, body, hi, hb, _⟩ := hp
      exact Target.isNumber_of_within? (inside_of_blockAt hg hat hi hb ht)

end Walk

end LockAudit
