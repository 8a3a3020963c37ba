import LockAudit.Proofs.Walk.Recording
import LockAudit.Proofs.Walk.Stack

/-! # Graphs that are walked alike

A step looks at what the graph says of the running activation: its body, the callees of its calls, and
whether these are followed. Two graphs that say the same along all walks from a root are explored alike,
with the same paths in the same order and the same log.
-/

namespace LockAudit.Walk

/-- Two graphs say the same of all that a step in the state looks up. -/
structure Concur (g g' : CallGraph) (s : State) : Prop where
  instances : ∀ f ∈ s.frames, g.instance? f.inst = g'.instance? f.inst
  callees : ∀ f ∈ s.frames, ∀ site, g.callees f.inst site = g'.callees f.inst site
  unresolved : ∀ f ∈ s.frames, ∀ site, g.isUnresolved f.inst site = g'.isUnresolved f.inst site
  entered : ∀ f ∈ s.frames, ∀ site, ∀ callee ∈ g.callees f.inst site,
    g.instance? callee = g'.instance? callee

variable {g g' : CallGraph} {options : Options} {s t : State}

theorem Concur.of_sameStack (h : Concur g g' s) (hst : SameStack s t) : Concur g g' t := by
  obtain ⟨hinstances, hcallees, hunresolved, hentered⟩ := h
  rw [← hst.frames] at hinstances hcallees hunresolved hentered
  exact ⟨hinstances, hcallees, hunresolved, hentered⟩

theorem blockAt_eq {inst : Name} (h : g.instance? inst = g'.instance? inst) (block : Target) :
    blockAt g inst block = blockAt g' inst block := by
  unfold blockAt
  rw [h]

theorem Concur.markCall_eq (h : Concur g g' s) (site : Name) :
    s.markCall g site = s.markCall g' site := by
  unfold State.markCall
  cases hs : s.frames with
  | nil => rfl
  | cons frame callers =>
    have hframe : frame ∈ s.frames := by simp [hs]
    simp only [h.unresolved frame hframe site]

theorem Concur.inlined_eq (h : Concur g g' s) (options : Options) (site : Name) :
    s.inlined g options site = s.inlined g' options site := by
  unfold State.inlined
  cases hs : s.frames with
  | nil => rfl
  | cons frame callers =>
    have hframe : frame ∈ s.frames := by simp [hs]
    dsimp only
    rw [← h.callees frame hframe site]
    refine List.filter_congr fun callee hcallee => ?_
    rw [State.canInline, State.canInline, h.entered frame hframe site callee hcallee]

theorem Concur.call_eq (h : Concur g g' s) (c : Call) : s.call g options c = s.call g' options c := by
  have hmarked := (h.of_sameStack (sameStack_markCall g s c.site)).inlined_eq options c.site
  unfold State.call
  dsimp only
  rw [State.calls, State.calls, hmarked, h.markCall_eq c.site]

theorem Concur.finish_eq (h : Concur g g' s) (terminator : Terminator) :
    s.finish g options terminator = s.finish g' options terminator := by
  cases terminator with
  | ret value location => rfl
  | goto targets => rfl
  | call c => rw [State.finish, State.finish, h.call_eq c]

/-- A step is the same in both graphs, and so is what it logs. -/
theorem Concur.step_eq (h : Concur g g' s) (options : Options) :
    s.step g options = s.step g' options ∧ s.stepLog g = s.stepLog g' := by
  unfold State.step State.stepLog
  cases hs : s.frames with
  | nil => exact ⟨rfl, rfl⟩
  | cons frame callers =>
    have hframe : frame ∈ s.frames := by simp [hs]
    dsimp only
    cases frame.block with
    | none => exact ⟨rfl, rfl⟩
    | some block =>
      dsimp only
      rw [← blockAt_eq (h.instances frame hframe) block]
      cases blockAt g frame.inst block with
      | error e => exact ⟨rfl, rfl⟩
      | ok b =>
        exact ⟨(h.of_sameStack (sameStack_run s b.statements)).finish_eq b.terminator, rfl⟩

/-! ### Explorations -/

section Explorations

variable {root : Name} (h : ∀ s, Reaches g options root s → Concur g g' s)

include h

/-- An advance looks up nothing on which the graphs differ. -/
theorem advance_eq_of_concur {fuel : Nat} {seen : Seen} {log : List LogRecord} {settled : Option Trace}
    (hs : Reaches g options root s) :
    advance g options fuel seen log settled s = advance g' options fuel seen log settled s := by
  induction fuel generalizing seen log settled s with
  | zero => rfl
  | succ fuel ih =>
    obtain ⟨hstep, hlog⟩ := (h s hs).step_eq options
    unfold advance
    rw [← hstep, ← hlog]
    cases hnext : s.step g options with
    | error e => rfl
    | ok next =>
      rcases next with t | t | ⟨t, children⟩
      · rfl
      · exact ih (hs.tail (.returned hnext))
      · cases children with
        | nil => rfl
        | cons child rest =>
          dsimp only
          cases hsift : sift seen (child :: rest) with
          | error e => rfl
          | ok result =>
            obtain ⟨seen', sifted⟩ := result
            dsimp only
            split
            · rename_i only honly
              have hin : only ∈ sifted.filterMap id := honly ▸ List.mem_singleton_self only
              exact ih (hs.tail (.onward hnext ((sift_sifted hsift).mem only hin)))
            · rfl

/-- An exploration is the same on both graphs. -/
theorem exploreFrom_eq_of_concur {fuel : Nat} {p : Progress}
    (hw : ∀ s ∈ p.work, Reaches g options root s) :
    exploreFrom g options root fuel p = exploreFrom g' options root fuel p := by
  induction fuel generalizing p with
  | zero => rfl
  | succ fuel ih =>
    unfold exploreFrom
    cases hwork : p.work with
    | nil => rfl
    | cons s rest =>
      rw [hwork] at hw
      obtain ⟨hs, hrest⟩ := List.forall_mem_cons.mp hw
      dsimp only
      rw [← advance_eq_of_concur h hs]
      split
      · rfl
      · cases hadvance : advance g options fuel p.seen p.log none s with
        | error e => rfl
        | ok a =>
          dsimp only
          obtain ⟨_, hstates⟩ := advance_left hadvance hs (by simp)
          cases habsorb : { p with work := rest, started := p.started + 1 }.absorb root a with
          | error e => rfl
          | ok q =>
            obtain ⟨_, hwork', _⟩ := absorb_cases habsorb
            exact ih (hwork' ▸ List.forall_mem_append.mpr ⟨hstates, hrest⟩)

/-- Two graphs that say the same along all walks from a root are explored alike. -/
theorem explore_eq_of_concur (fuel : Nat) : explore g options fuel root = explore g' options fuel root := by
  have hroot : g.instance? root = g'.instance? root :=
    (h (.start root) .refl).instances _ (List.mem_singleton_self _)
  unfold explore
  rw [← hroot, exploreFrom_eq_of_concur h fun _ => reaches_of_mem_start]

end Explorations

/-- Two graphs with the same roots that are explored alike from each of them have the same collection. -/
theorem collect_eq_of_explore_eq {roots : List Name} {fuel : Nat} (clock : Clock)
    (hcontains : ∀ root ∈ roots, g.contains root = g'.contains root)
    (hexplore : ∀ root ∈ roots, explore g options fuel root = explore g' options fuel root) :
    collect g options fuel clock roots = collect g' options fuel clock roots := by
  have hcheck : checkRoots g roots = checkRoots g' roots := by
    have hmissing : (sortedRoots roots).filter (fun r => !g.contains r) =
        (sortedRoots roots).filter fun r => !g'.contains r :=
      List.filter_congr fun r hr => by rw [hcontains r (mem_sortedRoots hr)]
    unfold checkRoots
    rw [hmissing]
  have hmap : ∀ started : List Name, (∀ r ∈ started, r ∈ roots) →
      started.mapM (explore g options fuel) = started.mapM (explore g' options fuel) := by
    intro started hin
    induction started with
    | nil => rfl
    | cons r rs ih =>
      obtain ⟨hr, hrs⟩ := List.forall_mem_cons.mp hin
      rw [List.mapM_cons, List.mapM_cons, hexplore r hr, ih hrs]
  unfold collect
  rw [hcheck]
  dsimp only
  refine bind_congr fun _ => bind_congr fun deadline => ?_
  rw [hmap _ fun r hr => mem_sortedRoots (mem_startedRoots hr)]

end LockAudit.Walk
