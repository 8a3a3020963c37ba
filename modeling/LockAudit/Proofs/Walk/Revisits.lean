import LockAudit.Proofs.Walk.Closure
import LockAudit.Proofs.Walk.Termination

/-! # How often a block is entered

A jump, and a call that is not followed, enter a block of the running activation only while the block was
entered fewer times than the bound says. A call that is followed lets its activation wait at the block behind
the call, and counts this as an entry without looking at the bound. So the bound is exceeded, and it is
exceeded by such calls alone.
-/

namespace LockAudit.Walk

open Visits

variable {g : CallGraph} {options : Options}

def Awaits (s t : State) (frame : Nat) (block : Target) : Prop :=
  ∃ callee caller callers target, t.frames = callee :: caller :: callers ∧
    t.frames.length = s.frames.length + 1 ∧ caller.number = frame ∧ caller.block = some target ∧
    Name.same target block = true

/-! ### What a step does to a count -/

theorem Numbered.count_next {s : State} (hn : Numbered s) (block : Target) :
    s.visits.count s.nextFrame block = 0 := by
  apply count_eq_zero
  rintro v hv ⟨hframe, _⟩
  have hlt := hn.entered v.1.1 (List.mem_map_of_mem hv)
  omega

structure Counted (options : Options) (s t : State) (frame : Nat) (block : Target) : Prop where
  awaited : Awaits s t frame block → t.visits.count frame block = s.visits.count frame block + 1
  bounded : ¬Awaits s t frame block → t.visits.count frame block = s.visits.count frame block ∨
    t.visits.count frame block = s.visits.count frame block + 1 ∧
      t.visits.count frame block ≤ options.maxRevisits

/-- One step counts at most one entry of a block, within the bound unless the activation waits there. -/
theorem Follows.counted (hg : g.Sound) {s t : State} (h : Follows g options s t) (hs : Located g s)
    (hn : Numbered s) (frame : Nat) (block : Target) : Counted options s t frame block := by
  obtain ⟨top, callers, _, b, hf, _, hat, hmoves⟩ := h.moves
  obtain ⟨i, body, hi, hb, _⟩ := hs.placed top (by simp [hf])
  have hkey : ∀ target ∈ b.terminator.successors, Name.isKey target = true := fun target ht =>
    Target.isKey_of_within? (inside_of_blockAt hg hat hi hb ht)
  -- where the stack has not grown, nothing waits
  have hshort : t.frames.length ≤ s.frames.length → ¬Awaits s t frame block := by
    rintro hle ⟨_, _, _, _, _, hlength, _⟩
    omega
  generalize hframes : t.frames = frames, hvisits : t.visits = visits at hmoves
  cases hmoves with
  | ended =>
    have hnot := hshort (by simp [hframes, hf])
    exact ⟨fun ha => absurd ha hnot, fun _ => .inl (by rw [hvisits])⟩
  | entered target ht hc =>
    have hnot := hshort (by simp [hframes, hf])
    refine ⟨fun ha => absurd ha hnot, fun _ => ?_⟩
    rw [hvisits, hs.ascending.count_enter (hkey target ht)]
    by_cases hcounts : Counts ((top.number, target), 1) frame block
    · obtain ⟨rfl, hsame⟩ := hcounts
      rw [if_pos ⟨rfl, hsame⟩, ← count_same hsame]
      exact .inr ⟨rfl, hc⟩
    · rw [if_neg hcounts]
      exact .inl rfl
  | called c hterm callee j _ _ _ =>
    have hkeyc : ∀ target, c.target = some target → Name.isKey target = true := by
      intro target htarget
      refine hkey target ?_
      simp [hterm, Terminator.successors, htarget]
    have htop : top.number < s.nextFrame := hn.stack top (by simp [hf])
    have hasc := hs.ascending.await top.number hkeyc
    have hawaits : Awaits s t frame block ↔
        top.number = frame ∧ ∃ target, c.target = some target ∧ Name.same target block = true := by
      constructor
      · rintro ⟨_, caller, _, target, hstack, _, hnumber, htarget, hsame⟩
        rw [hframes] at hstack
        cases hstack
        exact ⟨hnumber, target, htarget, hsame⟩
      · rintro ⟨hnumber, target, htarget, hsame⟩
        exact ⟨_, _, _, target, hframes, by simp [hframes, hf], hnumber, htarget, hsame⟩
    have hentry : Name.isKey (.int 0) = true := rfl
    have hcount := hasc.count_enter hentry s.nextFrame frame block
    rw [hs.ascending.count_await top.number hkeyc, ← hvisits] at hcount
    refine ⟨?_, ?_⟩
    · intro ha
      rw [hawaits] at ha
      have hnew : ¬Counts ((s.nextFrame, .int 0), 1) frame block := by
        rintro ⟨hframe, _⟩
        have heq : s.nextFrame = frame := hframe
        omega
      rw [hcount, if_pos ha, if_neg hnew]
    · intro hna
      rw [hawaits] at hna
      rw [hcount, if_neg hna]
      by_cases hnew : Counts ((s.nextFrame, .int 0), 1) frame block
      · rw [if_pos hnew]
        obtain ⟨rfl, _⟩ := hnew
        rw [hn.count_next]
        exact .inr ⟨rfl, options.one_le_maxRevisits⟩
      · rw [if_neg hnew]
        exact .inl rfl

/-! ### Walks that exceed the bound -/

def WaitedBeyond (g : CallGraph) (options : Options) (root : Name) (s : State) (frame : Nat)
    (block : Target) : Prop :=
  ∃ u v, Reaches g options root u ∧ Follows g options u v ∧
    Relation.ReflTransGen (Follows g options) v s ∧ Awaits u v frame block ∧
    options.maxRevisits ≤ u.visits.count frame block

theorem WaitedBeyond.tail {root : Name} {s t : State} {frame : Nat} {block : Target}
    (h : WaitedBeyond g options root s frame block) (hf : Follows g options s t) :
    WaitedBeyond g options root t frame block := by
  obtain ⟨u, v, hu, huv, hvs, hrest⟩ := h
  exact ⟨u, v, hu, huv, hvs.tail hf, hrest⟩

theorem count_start_le (options : Options) (root : Name) (frame : Nat) (block : Target) :
    (State.start root).visits.count frame block ≤ options.maxRevisits := by
  refine Nat.le_trans ?_ options.one_le_maxRevisits
  rw [State.start, count_cons]
  split
  · exact Nat.le_refl 1
  · exact Nat.zero_le 1

/-- A root without a body has no walk beyond its start. -/
theorem Reaches.hasBody {root : Name} {s t : State} (h : Reaches g options root s)
    (hf : Follows g options s t) : HasBody g root := by
  rcases Relation.ReflTransGen.cases_head h with rfl | ⟨u, hu, _⟩
  · exact hf.hasBody
  · exact hu.hasBody

theorem Reaches.counted (hg : g.Sound) {root : Name} {s t : State} (h : Reaches g options root s)
    (hf : Follows g options s t) (frame : Nat) (block : Target) : Counted options s t frame block :=
  hf.counted hg (h.located hg (h.hasBody hf)) h.reachable.numbered frame block

/-- Along a walk the count of a block passes the bound in a step that lets the activation wait there. -/
theorem waitedBeyond_of_lt (hg : g.Sound) {root : Name} {s : State} (h : Reaches g options root s)
    {frame : Nat} {block : Target} (hlt : options.maxRevisits < s.visits.count frame block) :
    WaitedBeyond g options root s frame block := by
  induction h with
  | refl =>
    have hle := count_start_le options root frame block
    omega
  | @tail u v hu huv ih =>
    have hcount := Reaches.counted hg hu huv frame block
    -- either the count has passed the bound before, or it does so in this step
    by_cases hexceeded : options.maxRevisits < u.visits.count frame block
    · exact (ih hexceeded).tail huv
    · by_cases hawaits : Awaits u v frame block
      · have hone := hcount.awaited hawaits
        exact ⟨u, v, hu, huv, .refl, hawaits, by omega⟩
      · have hbound := hcount.bounded hawaits
        omega

theorem count_mono (hg : g.Sound) {root : Name} {s t : State} (hs : Reaches g options root s)
    (h : Relation.ReflTransGen (Follows g options) s t) (frame : Nat) (block : Target) :
    s.visits.count frame block ≤ t.visits.count frame block := by
  induction h with
  | refl => exact Nat.le_refl _
  | @tail u v hu huv ih =>
    have hcount := Reaches.counted hg (hs.trans hu) huv frame block
    by_cases hawaits : Awaits u v frame block
    · have hone := hcount.awaited hawaits
      omega
    · have hbound := hcount.bounded hawaits
      omega

theorem lt_of_waitedBeyond (hg : g.Sound) {root : Name} {s : State} {frame : Nat} {block : Target}
    (h : WaitedBeyond g options root s frame block) :
    options.maxRevisits < s.visits.count frame block := by
  obtain ⟨u, v, hu, huv, hvs, hawaits, hle⟩ := h
  have hone := (hu.counted hg huv frame block).awaited hawaits
  have hmono := count_mono hg (hu.tail huv) hvs frame block
  omega

/-- On the walks of a consistent program, the entries of a block exceed the bound if and only if the activation
was made to wait at the block when it had none left. Every other entry is within the bound. -/
theorem revisits_exceeded_iff {p : Program} (hp : p.check = .ok ()) {options : Options} {root : Name}
    {s : State} (h : Reaches p.graph options root s) (frame : Nat) (block : Target) :
    (options.maxRevisits < s.visits.count frame block ↔
      WaitedBeyond p.graph options root s frame block) ∧
    ∀ t, Follows p.graph options s t → Counted options s t frame block := by
  have hg := Program.sound_graph hp
  exact ⟨⟨waitedBeyond_of_lt hg h, lt_of_waitedBeyond hg⟩, fun t ht => h.counted hg ht frame block⟩

/-! ### A loop of calls -/

def State.nexts (g : CallGraph) (options : Options) (s : State) : List State :=
  match s.step g options with
  | .ok (.returned t) => [t]
  | .ok (.onward _ children) => children
  | _ => []

theorem follows_of_mem_nexts {s t : State} (h : t ∈ s.nexts g options) : Follows g options s t := by
  unfold State.nexts at h
  split at h
  · rename_i hstep
    obtain rfl := List.mem_singleton.mp h
    exact .returned hstep
  · rename_i hstep
    exact .onward hstep h
  · cases h

/-- The walk that goes on in the state with the next of the given positions among those that follow. -/
def State.walk? (g : CallGraph) (options : Options) (s : State) : List Nat → Option State
  | [] => some s
  | i :: rest => (s.nexts g options)[i]?.bind fun t => t.walk? g options rest

theorem reaches_of_walk? {root : Name} {choices : List Nat} {s t : State}
    (hs : Reaches g options root s) (h : s.walk? g options choices = some t) :
    Reaches g options root t := by
  induction choices generalizing s with
  | nil =>
    cases h
    exact hs
  | cons i rest ih =>
    obtain ⟨u, hu, h⟩ := Option.bind_eq_some_iff.mp h
    exact ih (hs.tail (follows_of_mem_nexts (List.mem_of_getElem? hu))) h

def callingInLoop : Program :=
  { unit := .str "unit", roots := [.str "main"], codegen := true, buildScript := false
    instances := [
      { id := .str "main", defPath := .str "main", typeArgs := [], signature := .str "",
        method := .null
        body := some { blocks := [
          { statements := [], terminator := .goto [.int 1, .int 2] },
          { statements := []
            terminator := .call {
              site := .str "s", callee := .str "main", signature := .null, method := .null,
              target := some (.int 0), destination := .null, location := .unknown } },
          { statements := [], terminator := .ret .null .unknown }] } }] }

theorem callingInLoop_walk :
    ∃ s, Reaches callingInLoop.graph {} (.str "main") s ∧ s.visits.count 0 (.int 0) = 3 := by
  have hwalk : ((State.start (.str "main")).walk? callingInLoop.graph {} [0, 0, 1, 0, 0, 0]).map
      (fun s => s.visits.count 0 (.int 0)) = some 3 := by
    decide +kernel
  obtain ⟨s, hs, hcount⟩ := Option.map_eq_some_iff.mp hwalk
  exact ⟨s, reaches_of_walk? .refl hs, hcount⟩

/-- The call of each round returns to the first block of the loop, which is entered three times though the
bound is two. -/
theorem callingInLoop_exceeds :
    callingInLoop.check = .ok () ∧ ({} : Options).maxRevisits = 2 ∧
    ∃ s, Reaches callingInLoop.graph {} (.str "main") s ∧ s.visits.count 0 (.int 0) = 3 :=
  ⟨by decide +kernel, rfl, callingInLoop_walk⟩

/-- Waiting for callees at the head of a loop takes the count beyond the bound. -/
theorem revisits_exceeded_iff_callingInLoop :
    callingInLoop.check = .ok () ∧
    ∃ s, Reaches callingInLoop.graph {} (.str "main") s ∧ 2 < s.visits.count 0 (.int 0) ∧
      WaitedBeyond callingInLoop.graph {} (.str "main") s 0 (.int 0) := by
  have hcheck : callingInLoop.check = .ok () := by decide +kernel
  obtain ⟨s, hs, hcount⟩ := callingInLoop_walk
  have hlt : 2 < s.visits.count 0 (.int 0) := by omega
  exact ⟨hcheck, s, hs, hlt, (revisits_exceeded_iff hcheck hs 0 (.int 0)).1.mp hlt⟩

end LockAudit.Walk
