import LockAudit.Proofs.Walk.Congruence
import LockAudit.Proofs.Walk.Recording

/-! # What an exploration leaves out

An exploration drops the states whose keys were met before. A key tells everything about a state that a
walk can reach, apart from how its names are written, so a dropped state has nothing to add: once no work
is left, every state that a walk reaches is like one that was processed.
-/

namespace LockAudit.Walk

/-! ### Keys of states that walks reach -/

def Visits.activations (vs : Visits) : List Nat :=
  vs.map fun v => v.1.1

theorem mem_activations_enter (frame : Nat) (block : Target) (vs : Visits) (n : Nat) :
    n ∈ (vs.enter frame block).activations ↔ n = frame ∨ n ∈ vs.activations := by
  induction vs with
  | nil => simp [Visits.enter, Visits.activations]
  | cons v vs ih =>
    obtain ⟨⟨f, b⟩, count⟩ := v
    simp only [Visits.activations, List.map_cons, List.mem_cons] at ih ⊢
    simp only [Visits.enter]
    split
    · rename_i h
      simp only [Bool.and_eq_true, decide_eq_true_eq] at h
      simp [h.1]
    · split
      · simp
      · simp only [List.map_cons, List.mem_cons, ih]
        exact or_left_comm

structure Numbered (s : State) : Prop where
  stack : ∀ f ∈ s.frames, f.number < s.nextFrame
  entered : ∀ n ∈ s.visits.activations, n < s.nextFrame
  newest : ∃ n ∈ s.visits.activations, n + 1 = s.nextFrame

theorem numbered_start (root : Name) : Numbered (.start root) := by
  constructor <;> simp [State.start, Visits.activations]

theorem Numbered.of_eq {s t : State} (h : Numbered s) (hf : ∀ f ∈ t.frames, f ∈ s.frames)
    (hv : t.visits = s.visits) (hn : t.nextFrame = s.nextFrame) : Numbered t := by
  refine ⟨?_, ?_, ?_⟩
  · intro f hm
    rw [hn]
    exact h.stack f (hf f hm)
  · rw [hv, hn]
    exact h.entered
  · rw [hv, hn]
    exact h.newest

theorem Numbered.enter {s : State} (h : Numbered s) (block : Target) : Numbered (s.enter block) := by
  unfold State.enter
  split
  · exact h
  · rename_i frame callers hs
    have htop : frame.number < s.nextFrame := h.stack frame (by simp [hs])
    refine ⟨?_, ?_, ?_⟩
    · intro f hf
      rcases List.mem_cons.mp hf with rfl | hf
      · exact htop
      · exact h.stack f (by simp [hs, hf])
    · intro n hn
      rcases (mem_activations_enter ..).mp hn with rfl | hn
      · exact htop
      · exact h.entered n hn
    · obtain ⟨n, hn, he⟩ := h.newest
      exact ⟨n, (mem_activations_enter ..).mpr (.inr hn), he⟩

theorem Numbered.push {s : State} (h : Numbered s) (callee : Name) (target : Option Target)
    (destination : Name) : Numbered (s.push callee target destination) := by
  unfold State.push
  split
  · exact h
  · rename_i frame callers hs
    have htop : frame.number < s.nextFrame := h.stack frame (by simp [hs])
    refine ⟨?_, ?_, s.nextFrame, (mem_activations_enter ..).mpr (.inl rfl), rfl⟩
    · intro f hf
      refine Nat.lt_succ_iff.mpr ?_
      rcases List.mem_cons.mp hf with rfl | hf
      · exact Nat.le_refl _
      · rcases List.mem_cons.mp hf with rfl | hf
        · exact Nat.le_of_lt htop
        · exact Nat.le_of_lt (h.stack f (by simp [hs, hf]))
    · intro n hn
      refine Nat.lt_succ_iff.mpr ?_
      rcases (mem_activations_enter ..).mp hn with rfl | hn
      · exact Nat.le_refl _
      · cases target with
        | none => exact Nat.le_of_lt (h.entered n hn)
        | some block =>
          rcases (mem_activations_enter ..).mp hn with rfl | hn
          · exact Nat.le_of_lt htop
          · exact Nat.le_of_lt (h.entered n hn)

theorem Effect.numbered {s t : State} (h : Effect s t) (hn : Numbered s) : Numbered t := by
  cases h with
  | acquire _ guard lock kind location raii => exact hn.of_eq (fun _ hf => hf) rfl rfl
  | release _ held location =>
    unfold State.release
    split
    · exact hn
    · exact hn.of_eq (fun _ hf => hf) rfl rfl
  | rebind _ frame guard => exact hn.of_eq (fun _ hf => hf) rfl rfl
  | degrade => exact hn.of_eq (fun _ hf => hf) rfl rfl
  | pop => exact hn.of_eq (fun _ hf => List.mem_of_mem_tail hf) rfl rfl
  | enter block => exact hn.enter block
  | push callee target destination => exact hn.push callee target destination

theorem Reachable.numbered {g : CallGraph} {options : Options} {root : Name} {s : State}
    (h : Reachable g options root s) : Numbered s :=
  h.effects.preserve (fun _ _ he => he.numbered) (numbered_start root)

theorem Numbered.nextFrame_le {s t : State} (hs : Numbered s) (ht : Numbered t)
    (hv : s.visits.map visitKey = t.visits.map visitKey) : s.nextFrame ≤ t.nextFrame := by
  have ha : s.visits.activations = t.visits.activations := by
    simpa [Visits.activations, visitKey, Function.comp_def] using
      congrArg (List.map fun v => v.1.1) hv
  obtain ⟨n, hm, hn⟩ := hs.newest
  have hlt := ht.entered n (ha ▸ hm)
  omega

/-- States that steps lead to with one key are alike. -/
theorem alike_of_key {g : CallGraph} {options : Options} {root : Name} {s t : State}
    (hs : Reachable g options root s) (ht : Reachable g options root t) (h : s.key = t.key) :
    Alike s t := by
  have hv : s.visits.map visitKey = t.visits.map visitKey := congrArg Key.visits h
  have hns := hs.numbered
  have hnt := ht.numbered
  exact alike_iff.mpr ⟨h, Nat.le_antisymm (hns.nextFrame_le hnt hv) (hnt.nextFrame_le hns hv.symm)⟩

/-! ### Processed states -/

def Ends (g : CallGraph) (options : Options) (s t : State) : Prop :=
  s.step g options = .ok (.over t) ∨ s.step g options = .ok (.onward t [])

/-- Where the processed states lead: to a final trace, to a processed state, or to states whose keys are
known. -/
structure Closed (g : CallGraph) (options : Options) (processed : State → Prop) (known : Key → Prop)
    (finals : Trace → Prop) : Prop where
  steps : ∀ x, processed x → ∃ n, x.step g options = .ok n
  ends : ∀ x t, processed x → Ends g options x t → finals t.trace
  returned : ∀ x t, processed x → x.step g options = .ok (.returned t) → processed t
  onward : ∀ x t children, processed x → x.step g options = .ok (.onward t children) →
    ∀ c ∈ children, known c.key

namespace Closed

variable {g : CallGraph} {options : Options} {processed processed' : State → Prop}
  {known known' : Key → Prop} {finals finals' : Trace → Prop}

theorem mono (h : Closed g options processed known finals) (hk : ∀ k, known k → known' k)
    (hf : ∀ t, finals t → finals' t) : Closed g options processed known' finals' :=
  ⟨h.steps, fun x t hx ht => hf _ (h.ends x t hx ht), h.returned,
    fun x t children hx hs c hc => hk _ (h.onward x t children hx hs c hc)⟩

theorem union (h : Closed g options processed known finals)
    (h' : Closed g options processed' known finals) :
    Closed g options (fun x => processed x ∨ processed' x) known finals := by
  constructor
  · rintro x (hx | hx)
    · exact h.steps x hx
    · exact h'.steps x hx
  · rintro x t (hx | hx)
    · exact h.ends x t hx
    · exact h'.ends x t hx
  · rintro x t (hx | hx) hs
    · exact .inl (h.returned x t hx hs)
    · exact .inr (h'.returned x t hx hs)
  · rintro x t children (hx | hx)
    · exact h.onward x t children hx
    · exact h'.onward x t children hx

/-- One more state is processed. -/
theorem insert (h : Closed g options processed known finals) {s : State} {n : Next}
    (hs : s.step g options = .ok n) (hends : ∀ t, Ends g options s t → finals t.trace)
    (hreturned : ∀ t, n = .returned t → processed t)
    (honward : ∀ t children, n = .onward t children → ∀ c ∈ children, known c.key) :
    Closed g options (fun x => x = s ∨ processed x) known finals := by
  constructor
  · rintro x (rfl | hx)
    · exact ⟨n, hs⟩
    · exact h.steps x hx
  · rintro x t (rfl | hx)
    · exact hends t
    · exact h.ends x t hx
  · rintro x t (rfl | hx) hr
    · rw [hs] at hr
      exact .inr (hreturned t (Except.ok.inj hr))
    · exact .inr (h.returned x t hx hr)
  · rintro x t children (rfl | hx) ho
    · rw [hs] at ho
      exact honward t children (Except.ok.inj ho)
    · exact h.onward x t children hx ho

end Closed

theorem closed_none (g : CallGraph) (options : Options) (known : Key → Prop) (finals : Trace → Prop) :
    Closed g options (fun _ => False) known finals :=
  ⟨fun _ h => h.elim, fun _ _ h => h.elim, fun _ _ h => h.elim, fun _ _ _ h => h.elim⟩

theorem closed_single {g : CallGraph} {options : Options} {known : Key → Prop} {finals : Trace → Prop}
    {s : State} {n : Next} (hs : s.step g options = .ok n)
    (hends : ∀ t, Ends g options s t → finals t.trace) (hreturned : ∀ t, n ≠ .returned t)
    (honward : ∀ t children, n = .onward t children → ∀ c ∈ children, known c.key) :
    Closed g options (· = s) known finals := by
  have h := (closed_none g options known finals).insert hs hends (fun t ht => hreturned t ht) honward
  simpa only [or_false] using h

def finalState? (g : CallGraph) (options : Options) : Nat → Seen → State → Option State
  | 0, _, _ => none
  | fuel + 1, seen, s =>
    match s.step g options with
    | .error _ => none
    | .ok (.over t) => some t
    | .ok (.returned t) => finalState? g options fuel seen t
    | .ok (.onward t []) => some t
    | .ok (.onward _ children) =>
      match sift seen children with
      | .error _ => none
      | .ok (seen, sifted) =>
        match sifted.filterMap id with
        | [only] => finalState? g options fuel seen only
        | _ => none

/-- What an advance from `s` processes: the states up to the end or the fork. -/
structure Processes (g : CallGraph) (options : Options) (root : Name) (seen : Seen) (s : State)
    (a : Advanced) (finals : Trace → Prop) (processed : State → Prop) : Prop where
  start : processed s
  reaches : ∀ x, processed x → Reaches g options root x
  closed : Closed g options processed (fun k => a.seen.contains k = true) finals
  grows : ∀ k, seen.contains k = true → a.seen.contains k = true
  known : ∀ k, a.seen.contains k = true → seen.contains k = true ∨
    ∃ c, c.key = k ∧ (processed c ∨ c ∈ a.outcome.states)

theorem finalState?_of_ends {g : CallGraph} {options : Options} {s t : State}
    (h : Ends g options s t) (fuel : Nat) (seen : Seen) :
    finalState? g options (fuel + 1) seen s = some t := by
  rcases h with h | h <;> simp [finalState?, h]

theorem finalState?_lone {g : CallGraph} {options : Options} {s t only : State} {children : List State}
    {fuel : Nat} {seen seen' : Seen} {sifted : List (Option State)}
    (h : s.step g options = .ok (.onward t children)) (hne : children ≠ [])
    (hsift : sift seen children = .ok (seen', sifted)) (ho : sifted.filterMap id = [only]) :
    finalState? g options (fuel + 1) seen s = finalState? g options fuel seen' only := by
  cases children with
  | nil => exact absurd rfl hne
  | cons c cs => simp only [finalState?, h, hsift, ho]

theorem finalState?_fork {g : CallGraph} {options : Options} {s t : State} {children : List State}
    {fuel : Nat} {seen seen' : Seen} {sifted : List (Option State)}
    (h : s.step g options = .ok (.onward t children)) (hne : children ≠ [])
    (hsift : sift seen children = .ok (seen', sifted)) (hno : ∀ only, sifted.filterMap id ≠ [only]) :
    finalState? g options (fuel + 1) seen s = none := by
  cases children with
  | nil => exact absurd rfl hne
  | cons c cs => simp only [finalState?, h, hsift]

theorem not_ends_of_returned {g : CallGraph} {options : Options} {s t u : State}
    (h : s.step g options = .ok (.returned t)) : ¬Ends g options s u := by
  rintro (he | he) <;> rw [h] at he <;> cases he

theorem not_ends_of_onward {g : CallGraph} {options : Options} {s t u : State} {children : List State}
    (h : s.step g options = .ok (.onward t children)) (hne : children ≠ []) : ¬Ends g options s u := by
  rintro (he | he) <;> rw [h] at he <;> cases he
  exact hne rfl

/-- An advance that goes on from `s` to `u` processes `s` besides what it processes from `u` on. -/
theorem Processes.insert {g : CallGraph} {options : Options} {root : Name} {seen seen' : Seen}
    {s u : State} {a : Advanced} {finals : Trace → Prop} {processed : State → Prop} {n : Next}
    (h : Processes g options root seen' u a finals processed) (hs : Reaches g options root s)
    (hstep : s.step g options = .ok n) (hends : ∀ t, ¬Ends g options s t)
    (hreturned : ∀ t, n = .returned t → t = u)
    (honward : ∀ t children, n = .onward t children → ∀ c ∈ children, seen'.contains c.key = true)
    (hgrows : ∀ k, seen.contains k = true → seen'.contains k = true)
    (hfresh : ∀ k, seen'.contains k = true → seen.contains k = true ∨ u.key = k) :
    Processes g options root seen s a finals (fun x => x = s ∨ processed x) := by
  refine ⟨.inl rfl, ?_, ?_, fun k hk => h.grows k (hgrows k hk), ?_⟩
  · rintro x (rfl | hx)
    · exact hs
    · exact h.reaches x hx
  · refine h.closed.insert hstep (fun t ht => absurd ht (hends t)) ?_ ?_
    · intro t ht
      exact hreturned t ht ▸ h.start
    · intro t children ht c hc
      exact h.grows _ (honward t children ht c hc)
  · intro k hk
    rcases h.known k hk with hk | ⟨c, hc, hpc⟩
    · exact (hfresh k hk).imp_right fun hu => ⟨u, hu, .inl (.inr h.start)⟩
    · exact .inr ⟨c, hc, hpc.imp_left .inr⟩

/-- An advance leaves nothing open: each state on its way leads to the next, to the final trace or to states
whose keys are known by then. -/
theorem advance_processes {g : CallGraph} {options : Options} {root : Name} {fuel : Nat} {seen : Seen}
    {log : List LogRecord} {settled : Option Trace} {s : State} {a : Advanced}
    (h : advance g options fuel seen log settled s = .ok a) (hs : Reaches g options root s) :
    ∃ processed, Processes g options root seen s a
      (fun trace => ∃ t, finalState? g options fuel seen s = some t ∧ t.trace = trace) processed := by
  induction fuel generalizing seen log settled s with
  | zero => cases h
  | succ fuel ih =>
    obtain ⟨t, ht, ho, hseen⟩ | ⟨t, _, ht, h⟩ | ⟨t, children, seen', sifted, ht, hne, hsift, h⟩ :=
      advance_cases h
    · refine ⟨(· = s), rfl, fun x hx => hx ▸ hs, ?_, by simp [hseen], ?_⟩
      · have hends : ∀ u, Ends g options s u → ∃ v, finalState? g options (fuel + 1) seen s = some v ∧
            v.trace = u.trace := fun u hu => ⟨u, finalState?_of_ends hu fuel seen, rfl⟩
        rcases ht with ht | ht
        · exact closed_single ht hends (by simp) (by simp)
        · exact closed_single ht hends (by simp) (by simp)
      · intro k hk
        exact .inl (hseen ▸ hk)
    · obtain ⟨processed, hp⟩ := ih h (hs.tail (.returned ht))
      have hfinal : finalState? g options (fuel + 1) seen s = finalState? g options fuel seen t := by
        simp only [finalState?, ht]
      rw [hfinal]
      refine ⟨_, hp.insert hs ht (fun u => not_ends_of_returned ht) ?_ (by simp) (fun _ => id)
        (fun _ => .inl)⟩
      rintro _ ⟨⟩
      rfl
    · have hsifted := sift_sifted hsift
      have hgrows : ∀ k, seen.contains k = true → seen'.contains k = true := fun k hk =>
        (hsifted.known k).mpr (.inl hk)
      have hchildren : ∀ u cs, Next.onward t children = .onward u cs →
          ∀ c ∈ cs, seen'.contains c.key = true := by
        rintro _ _ ⟨⟩ c hc
        exact (hsifted.known _).mpr (.inr ⟨c, hc, rfl⟩)
      -- A key that was not known before is that of a state that is left.
      have hfresh : ∀ k, seen'.contains k = true → seen.contains k = true ∨
          ∃ c ∈ sifted.filterMap id, c.key = k := by
        intro k hk
        rcases (hsifted.known k).mp hk with hk | ⟨c, hc, rfl⟩
        · exact .inl hk
        · exact hsifted.fresh c hc
      obtain ⟨only, _, ho, h⟩ | ⟨_, ho, hseen⟩ := h
      · have honly : only ∈ children := hsifted.mem only (ho ▸ List.mem_cons_self)
        obtain ⟨processed, hp⟩ := ih h (hs.tail (.onward ht honly))
        rw [finalState?_lone ht hne hsift ho]
        refine ⟨_, hp.insert hs ht (fun u => not_ends_of_onward ht hne) (by simp) hchildren hgrows ?_⟩
        intro k hk
        rw [ho] at hfresh
        simpa using hfresh k hk
      · refine ⟨(· = s), rfl, fun x hx => hx ▸ hs, ?_, hseen ▸ hgrows, ?_⟩
        · rw [hseen]
          exact closed_single ht (fun u hu => absurd hu (not_ends_of_onward ht hne)) (by simp) hchildren
        · intro k hk
          rw [hseen] at hk
          rcases hfresh k hk with hk | ⟨c, hc, hck⟩
          · exact .inl hk
          · exact .inr ⟨c, hck, .inr (by rwa [ho])⟩

end LockAudit.Walk
