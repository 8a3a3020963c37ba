import LockAudit.Proofs.Walk.Keyed
import LockAudit.Proofs.Walk.Recording
import LockAudit.Proofs.Walk.Termination

/-! # Explorations return

An advance runs out of fuel only along a walk with as many steps, and an exploration starts no more states
than its limit allows. So with fuel for the longest walk and for all the starts, an exploration comes to an
answer, and more fuel does not change it.
-/

namespace LockAudit.Walk

variable {g : CallGraph} {options : Options} {root : Name}

/-! ### What an exploration may fail at -/

inductive Obstructed (g : CallGraph) (options : Options) (root : Name) : Fault → Prop
  | step {s : State} {e : Fault} (hs : Reaches g options root s) (h : s.step g options = .error e) :
    Obstructed g options root e
  | state {s : State} (hs : Reaches g options root s) (h : s.isKeyed = false) :
    Obstructed g options root .unkeyed
  | trace {s : State} (hs : Pauses g options root s) (h : s.events.all Event.isKeyed = false) :
    Obstructed g options root .unkeyed

theorem not_obstructed (hg : g.Sound) (hk : g.isKeyed = true) (hbody : HasBody g root) (e : Fault) :
    ¬ Obstructed g options root e := by
  have hroot : root.isKey = true := by
    obtain ⟨i, _, hi, _⟩ := hbody
    exact CallGraph.isKey_of_instance? hk hi
  intro h
  cases h with
  | step hs h =>
    obtain ⟨n, hn⟩ := (hs.located hg hbody).exists_step hg (hs.keyed hk hroot).blocks options
    rw [hn] at h
    cases h
  | state hs h => exact Bool.noConfusion ((hs.keyed hk hroot).isKeyed.symm.trans h)
  | trace hs h =>
    have hevents := List.all_eq_true.mpr (hs.keyed hk hroot).events
    exact Bool.noConfusion (hevents.symm.trans h)

theorem blockAt_ne_outOfFuel (inst : Name) (block : Target) :
    blockAt g inst block ≠ .error .outOfFuel := by
  unfold blockAt
  intro h
  split at h
  · split at h <;> cases h
  · split at h
    · cases h
    · split at h
      · cases h
      · split at h <;> cases h

theorem finish_ne_outOfFuel (s : State) (terminator : Terminator) :
    s.finish g options terminator ≠ .error .outOfFuel := by
  intro h
  cases terminator with
  | ret value location => cases h
  | goto targets =>
    simp only [State.finish, State.jump] at h
    split at h <;> cases h
  | call c =>
    simp only [State.finish, State.call] at h
    split at h <;> cases h

theorem step_ne_outOfFuel (s : State) : s.step g options ≠ .error .outOfFuel := by
  unfold State.step
  intro h
  split at h
  · cases h
  · split at h
    · cases h
    · split at h
      · rename_i hat
        cases h
        exact blockAt_ne_outOfFuel _ _ hat
      · exact finish_ne_outOfFuel _ _ h

theorem Obstructed.ne_outOfFuel {e : Fault} (h : Obstructed g options root e) : e ≠ .outOfFuel := by
  cases h with
  | step _ h =>
    rintro rfl
    exact step_ne_outOfFuel _ h
  | state | trace => exact Fault.noConfusion

theorem sift_eq_error {seen : Seen} {children : List State} {e : Fault}
    (h : sift seen children = .error e) : e = .unkeyed ∧ ∃ c ∈ children, c.isKeyed = false := by
  induction children generalizing seen with
  | nil => cases h
  | cons c cs ih =>
    unfold sift at h
    split at h
    · rename_i hkey
      cases h
      refine ⟨rfl, c, List.mem_cons_self, ?_⟩
      simpa [State.key?] using hkey
    · have hrest : ∃ seen', sift seen' cs = .error e := by
        split at h <;> exact ⟨_, except_map_eq_error h⟩
      obtain ⟨seen', hrest⟩ := hrest
      obtain ⟨he, d, hd, hkey⟩ := ih hrest
      exact ⟨he, d, List.mem_cons_of_mem _ hd, hkey⟩

/-- An advance fails in its first step, in the sifting after it, or in the rest of it. -/
theorem advance_error_cases {fuel : Nat} {seen : Seen} {log : List LogRecord} {settled : Option Trace}
    {s : State} {e : Fault} (h : advance g options (fuel + 1) seen log settled s = .error e) :
    s.step g options = .error e ∨
    (∃ t children, s.step g options = .ok (.onward t children) ∧ sift seen children = .error e) ∨
    ∃ seen' log' settled' t, Follows g options s t ∧
      advance g options fuel seen' log' settled' t = .error e := by
  unfold advance at h
  dsimp only at h
  split at h
  · rename_i hstep
    cases h
    exact .inl hstep
  · cases h
  · rename_i t hstep
    exact .inr (.inr ⟨_, _, _, t, .returned hstep, h⟩)
  · cases h
  · rename_i t children _ hstep
    split at h
    · rename_i hsift
      cases h
      exact .inr (.inl ⟨t, children, hstep, hsift⟩)
    · rename_i seen' sifted hsift
      split at h
      · rename_i only ho
        have hmem : only ∈ children := (sift_sifted hsift).mem only (ho ▸ List.mem_cons_self)
        exact .inr (.inr ⟨_, _, _, only, .onward hstep hmem, h⟩)
      · cases h

/-- An advance that fails is out of fuel after as many steps of a walk, or it is obstructed. -/
theorem advance_eq_error {fuel : Nat} {seen : Seen} {log : List LogRecord} {settled : Option Trace}
    {s : State} {e : Fault} (h : advance g options fuel seen log settled s = .error e)
    (hs : Reaches g options root s) :
    (e = .outOfFuel ∧ ∃ walk, walk.length = fuel ∧ (s :: walk).IsChain (Follows g options)) ∨
      Obstructed g options root e := by
  induction fuel generalizing seen log settled s with
  | zero =>
    cases h
    exact .inl ⟨rfl, [], rfl, .singleton s⟩
  | succ fuel ih =>
    obtain hstep | ⟨t, children, hstep, hsift⟩ | ⟨_, _, _, t, hst, h⟩ := advance_error_cases h
    · exact .inr (.step hs hstep)
    · obtain ⟨rfl, c, hc, hkey⟩ := sift_eq_error hsift
      exact .inr (.state (hs.tail (.onward hstep hc)) hkey)
    · rcases ih h (hs.tail hst) with ⟨he, walk, hlen, hwalk⟩ | hobs
      · exact .inl ⟨he, t :: walk, by simp [hlen], List.isChain_cons_cons.mpr ⟨hst, hwalk⟩⟩
      · exact .inr hobs

/-! ### All traversals -/

theorem keep_eq_error {p : Progress} {t : Trace} {e : Fault} (h : p.keep root t = .error e) :
    e = .unkeyed ∧ t.events.all Event.isKeyed = false := by
  unfold Progress.keep at h
  dsimp only at h
  split at h
  · cases h
  · split at h
    · rename_i hkeyed
      cases h
      exact ⟨rfl, by simpa using hkeyed⟩
    · split at h <;> cases h

theorem absorb_eq_error {p : Progress} {a : Advanced} {e : Fault} (h : p.absorb root a = .error e) :
    e = .unkeyed ∧ ∃ t, a.outcome = .finished t ∧ t.events.all Event.isKeyed = false := by
  unfold Progress.absorb at h
  dsimp only at h
  split at h
  · rename_i t ho
    obtain ⟨he, hkeyed⟩ := keep_eq_error h
    exact ⟨he, t, ho, hkeyed⟩
  · cases h

theorem keep_started {p q : Progress} {t : Trace} (h : p.keep root t = .ok q) :
    q.started = p.started := by
  unfold Progress.keep at h
  dsimp only at h
  split at h
  · cases h
    rfl
  · split at h
    · cases h
    · split at h <;> cases h <;> rfl

theorem absorb_started {p q : Progress} {a : Advanced} (h : p.absorb root a = .ok q) :
    q.started = p.started := by
  unfold Progress.absorb at h
  dsimp only at h
  split at h
  · have hkept := keep_started h
    exact hkept
  · cases h
    rfl

/-- An exploration that fails is out of fuel after a walk with as many steps as it had fuel, apart from
the states that may still be started, or it is obstructed. -/
theorem exploreFrom_eq_error {fuel : Nat} {p : Progress} {e : Fault}
    (h : exploreFrom g options root fuel p = .error e)
    (hw : ∀ s ∈ p.work, Reaches g options root s) :
    (e = .outOfFuel ∧ ∃ s walk, Reaches g options root s ∧ (s :: walk).IsChain (Follows g options) ∧
      fuel ≤ walk.length + (options.maxPaths * startsPerPath - p.started) + 1) ∨
      Obstructed g options root e := by
  induction fuel generalizing p with
  | zero =>
    cases h
    exact .inl ⟨rfl, _, [], .refl, .singleton _, Nat.zero_le _⟩
  | succ fuel ih =>
    unfold exploreFrom at h
    split at h
    · cases h
    · rename_i s rest hwork
      rw [hwork] at hw
      obtain ⟨hs, hrest⟩ := List.forall_mem_cons.mp hw
      split at h
      · cases h
      · rename_i hfull
        split at h
        · rename_i ha
          cases h
          refine (advance_eq_error ha hs).imp_left ?_
          rintro ⟨he, walk, rfl, hwalk⟩
          exact ⟨he, s, walk, hs, hwalk, by omega⟩
        · rename_i a ha
          obtain ⟨hleft, hstates⟩ := advance_left ha hs (by simp)
          split at h
          · rename_i hp
            cases h
            obtain ⟨rfl, t, ho, hkeyed⟩ := absorb_eq_error hp
            obtain ⟨u, hu, rfl⟩ := hleft t ho
            exact .inr (.trace hu hkeyed)
          · rename_i q hq
            have hstarted := absorb_started hq
            have hwork' := (absorb_cases hq).2.1
            have hreach : ∀ c ∈ q.work, Reaches g options root c :=
              hwork' ▸ List.forall_mem_append.mpr ⟨hstates, hrest⟩
            refine (ih h hreach).imp_left ?_
            rintro ⟨he, u, walk, hu, hwalk, hfuel⟩
            refine ⟨he, u, walk, hu, hwalk, ?_⟩
            -- it was not full, so the start just made was one of those left
            simp only [Progress.isFull, Bool.or_eq_true, decide_eq_true_eq, not_or, Nat.not_le] at hfull
            dsimp only at hstarted
            omega

/-! ### More fuel changes nothing -/

/-- More fuel changes nothing once there is enough. -/
theorem advance_succ {fuel : Nat} {seen : Seen} {log : List LogRecord} {settled : Option Trace}
    {s : State} (h : advance g options fuel seen log settled s ≠ .error .outOfFuel) :
    advance g options (fuel + 1) seen log settled s = advance g options fuel seen log settled s := by
  induction fuel generalizing seen log settled s with
  | zero => exact absurd rfl h
  | succ fuel ih =>
    -- both sides make the same step, and only what they go on with has other fuel
    rw [advance.eq_2 g options seen log settled s fuel] at h
    rw [advance.eq_2 g options seen log settled s (fuel + 1),
      advance.eq_2 g options seen log settled s fuel]
    dsimp only at h ⊢
    cases hstep : s.step g options with
    | error e => rfl
    | ok next =>
      rw [hstep] at h
      rcases next with t | t | ⟨t, _ | ⟨c, cs⟩⟩
      · rfl
      · exact ih h
      · rfl
      · dsimp only at h ⊢
        cases hsift : sift seen (c :: cs) with
        | error e => rfl
        | ok r =>
          rw [hsift] at h
          dsimp only at h ⊢
          split
          · rename_i only ho
            rw [ho] at h
            exact ih h
          · rfl

theorem exploreFrom_succ {fuel : Nat} {p : Progress}
    (h : exploreFrom g options root fuel p ≠ .error .outOfFuel) :
    exploreFrom g options root (fuel + 1) p = exploreFrom g options root fuel p := by
  induction fuel generalizing p with
  | zero => exact absurd rfl h
  | succ fuel ih =>
    rw [exploreFrom.eq_2 g options root p fuel] at h
    rw [exploreFrom.eq_2 g options root p (fuel + 1), exploreFrom.eq_2 g options root p fuel]
    cases hwork : p.work with
    | nil => rfl
    | cons s rest =>
      rw [hwork] at h
      dsimp only at h ⊢
      split
      · rfl
      · rename_i hfull
        rw [if_neg hfull] at h
        have hadvance : advance g options fuel p.seen p.log none s ≠ .error .outOfFuel := by
          intro hout
          rw [hout] at h
          exact h rfl
        rw [advance_succ hadvance]
        cases ha : advance g options fuel p.seen p.log none s with
        | error e => rfl
        | ok a =>
          rw [ha] at h
          dsimp only at h ⊢
          split
          · rfl
          · rename_i q hq
            rw [hq] at h
            exact ih h

/-- With fuel of `n` or more there is always the one answer, which is not that the fuel was too little. -/
def Answers {α : Type} (n : Nat) (f : Nat → Except Fault α) (r : Except Fault α) : Prop :=
  r ≠ .error .outOfFuel ∧ ∀ fuel, n ≤ fuel → f fuel = r

theorem answers_of_succ {α : Type} {f : Nat → Except Fault α}
    (hf : ∀ fuel, f fuel ≠ .error .outOfFuel → f (fuel + 1) = f fuel) {n : Nat}
    (hn : f n ≠ .error .outOfFuel) : Answers n f (f n) := by
  refine ⟨hn, fun fuel hle => ?_⟩
  induction fuel, hle using Nat.le_induction with
  | base => rfl
  | succ fuel _ ih => rw [hf fuel (ih ▸ hn), ih]

theorem explore_succ {fuel : Nat} (h : explore g options fuel root ≠ .error .outOfFuel) :
    explore g options (fuel + 1) root = explore g options fuel root := by
  unfold explore at h ⊢
  split
  · rfl
  · rename_i i hi
    rw [hi] at h
    dsimp only at h
    split
    · rfl
    · rename_i hbody
      rw [if_neg hbody] at h
      exact exploreFrom_succ h

theorem pathsFrom_succ {fuel : Nat} (h : pathsFrom g options fuel root ≠ .error .outOfFuel) :
    pathsFrom g options (fuel + 1) root = pathsFrom g options fuel root := by
  unfold pathsFrom at h ⊢
  rw [explore_succ]
  intro hout
  rw [hout] at h
  exact h rfl

/-! ### Enough fuel -/

def enoughFuel (options : Options) (n : Nat) : Nat :=
  n + options.maxPaths * startsPerPath + 2

theorem IsWalkBound.advance_obstructed {n : Nat} (hn : IsWalkBound g options n) {s : State}
    (hs : Reaches g options root s) {seen : Seen} {log : List LogRecord} {settled : Option Trace}
    {e : Fault} (h : advance g options (enoughFuel options n) seen log settled s = .error e) :
    Obstructed g options root e := by
  rcases advance_eq_error h hs with ⟨_, walk, hlen, hwalk⟩ | hobs
  · have hle := hn root s hs walk hwalk
    unfold enoughFuel at hlen
    omega
  · exact hobs

/-- An exploration fails where the root is unknown, or it is obstructed. -/
theorem IsWalkBound.explore_obstructed {n : Nat} (hn : IsWalkBound g options n) {e : Fault}
    (h : explore g options (enoughFuel options n) root = .error e) :
    (g.instance? root = none ∧ e = .unknownInstance root) ∨
      (HasBody g root ∧ Obstructed g options root e) := by
  unfold explore at h
  split at h
  · rename_i hi
    cases h
    exact .inl ⟨hi, rfl⟩
  · rename_i i hi
    split at h
    · cases h
    · rename_i hbody
      rw [Option.isNone_iff_eq_none] at hbody
      obtain ⟨body, hb⟩ := Option.ne_none_iff_exists'.mp hbody
      refine .inr ⟨⟨i, body, hi, hb⟩, ?_⟩
      rcases exploreFrom_eq_error h (fun _ => reaches_of_mem_start) with
        ⟨_, s, walk, hs, hwalk, hfuel⟩ | hobs
      · have hle := hn root s hs walk hwalk
        simp only [Progress.start, Nat.sub_zero] at hfuel
        unfold enoughFuel at hfuel
        omega
      · exact hobs

theorem IsWalkBound.advance_answers {n : Nat} (hn : IsWalkBound g options n) {s : State}
    (hs : Reaches g options root s) (seen : Seen) (log : List LogRecord) (settled : Option Trace) :
    Answers (enoughFuel options n) (fun fuel => advance g options fuel seen log settled s)
      (advance g options (enoughFuel options n) seen log settled s) := by
  refine answers_of_succ ?_ ?_
  · exact fun _ h => advance_succ h
  · intro hout
    exact (hn.advance_obstructed hs hout).ne_outOfFuel rfl

theorem IsWalkBound.pathsFrom_answers {n : Nat} (hn : IsWalkBound g options n) (root : Name) :
    Answers (enoughFuel options n) (fun fuel => pathsFrom g options fuel root)
      (pathsFrom g options (enoughFuel options n) root) := by
  refine answers_of_succ ?_ ?_
  · exact fun _ h => pathsFrom_succ h
  · intro hout
    obtain ⟨_, he⟩ | ⟨_, hobs⟩ := hn.explore_obstructed (except_map_eq_error hout)
    · cases he
    · exact hobs.ne_outOfFuel rfl

theorem exists_beginning {walk : Nat → State} (h : ∀ k, Follows g options (walk k) (walk (k + 1)))
    (m k : Nat) : ∃ steps, steps.length = m ∧ (walk k :: steps).IsChain (Follows g options) := by
  induction m generalizing k with
  | zero => exact ⟨[], rfl, .singleton _⟩
  | succ m ih =>
    obtain ⟨steps, hlen, hsteps⟩ := ih (k + 1)
    exact ⟨walk (k + 1) :: steps, by simp [hlen], List.isChain_cons_cons.mpr ⟨h k, hsteps⟩⟩

theorem IsWalkBound.not_endless {n : Nat} (hn : IsWalkBound g options n) (root : Name) :
    ¬ ∃ walk : Nat → State, walk 0 = .start root ∧ ∀ k, Follows g options (walk k) (walk (k + 1)) := by
  rintro ⟨walk, h0, h⟩
  obtain ⟨steps, hlen, hsteps⟩ := exists_beginning h (n + 1) 0
  rw [h0] at hsteps
  have hle := hn root _ .refl steps hsteps
  omega

/-- Walks end. If no cycle of a body consists of calls alone, there is no walk without an end, and some
number bounds the steps of all walks from all roots. With that much fuel an advance from any state that a
walk reaches, and the search for the paths of any root, come to an answer that more fuel does not change.
Where the names can be looked up and the jumps are whole numbers, the answer is a result. -/
theorem walks_end {p : Program} (hp : p.check = .ok ())
    (hends : ∀ i ∈ p.instances, ∀ body, i.body = some body → body.CallsEnd) (options : Options) :
    ∃ n, ∀ root,
      (¬ ∃ walk : Nat → State,
        walk 0 = .start root ∧ ∀ k, Follows p.graph options (walk k) (walk (k + 1))) ∧
      (∀ walk, (State.start root :: walk).IsChain (Follows p.graph options) → walk.length ≤ n) ∧
      (∀ s, Reaches p.graph options root s → ∀ seen log settled,
        ∃ r, Answers n (fun fuel => advance p.graph options fuel seen log settled s) r ∧
          (p.instances.all Instance.isKeyed = true → HasBody p.graph root → ∃ a, r = .ok a)) ∧
      (∃ r, Answers n (fun fuel => pathsFrom p.graph options fuel root) r ∧
        (p.instances.all Instance.isKeyed = true → p.graph.contains root = true →
          ∃ paths, r = .ok paths)) := by
  have hsound := p.sound_graph hp
  have hcalls : p.graph.CallsEnd := fun i hi => hends i (Program.mem_graph.mp hi)
  obtain ⟨n, hn⟩ := exists_isWalkBound hsound hcalls options
  refine ⟨enoughFuel options n, fun root => ⟨hn.not_endless root, ?_, ?_, ?_⟩⟩
  · intro walk hwalk
    exact (hn root _ .refl walk hwalk).trans (by unfold enoughFuel; omega)
  · intro s hs seen log settled
    refine ⟨_, hn.advance_answers hs seen log settled, fun hk hbody => ?_⟩
    cases h : advance p.graph options (enoughFuel options n) seen log settled s with
    | error e =>
      exact absurd (hn.advance_obstructed hs h)
        (not_obstructed hsound (Program.isKeyed_graph hk) hbody e)
    | ok a => exact ⟨a, rfl⟩
  · refine ⟨_, hn.pathsFrom_answers root, fun hk hroot => ?_⟩
    cases h : explore p.graph options (enoughFuel options n) root with
    | error e =>
      obtain ⟨hnone, _⟩ | ⟨hbody, hobs⟩ := hn.explore_obstructed h
      · simp [CallGraph.contains, hnone] at hroot
      · exact absurd hobs (not_obstructed hsound (Program.isKeyed_graph hk) hbody e)
    | ok e =>
      refine ⟨LockPath.sorted e.paths, ?_⟩
      simp only [pathsFrom, h, Except.map]

def recursing : Program :=
  let jump (targets : List Target) : Block := { statements := [], terminator := .goto targets }
  { unit := .str "unit", roots := [.str "main"], codegen := true, buildScript := false
    instances := [
      { id := .str "main", defPath := .str "main", typeArgs := [], signature := .str "",
        method := .null
        body := some { blocks := [
          { statements := [
              .acquire (.str "g") { site := .static, name := .str "A" } .mutex .unknown (.bool true)]
            terminator := .call {
              site := .str "s", callee := .str "main", signature := .null, method := .null,
              target := some (.int 1), destination := .null, location := .unknown } },
          jump [.int 0, .int 2],
          { statements := [], terminator := .ret .null .unknown }] } }] }

theorem recursing_callsEnd : ∀ i ∈ recursing.instances, ∀ body, i.body = some body → body.CallsEnd := by
  intro i hi body hb
  obtain rfl := List.mem_singleton.mp hi
  cases hb
  refine Body.callsEnd_of_lt ?_
  rintro k j ⟨block, c, t, hblock, hc, ht, hj⟩
  match k with
  | 0 =>
    cases hblock
    cases hc
    cases ht
    cases hj
    decide
  | 1 | 2 =>
    cases hblock
    cases hc
  | k + 3 => cases hblock

/-- `main` calls itself in a loop, and yet all fuel from some amount on gives the same paths. -/
theorem walks_end_recursing :
    recursing.check = .ok () ∧
    (∀ i ∈ recursing.instances, ∀ body, i.body = some body → body.CallsEnd) ∧
    ∃ n paths, ∀ fuel, n ≤ fuel → pathsFrom recursing.graph {} fuel (.str "main") = .ok paths := by
  have hp : recursing.check = .ok () := by decide +kernel
  refine ⟨hp, recursing_callsEnd, ?_⟩
  obtain ⟨n, hn⟩ := walks_end hp recursing_callsEnd {}
  obtain ⟨_, _, _, r, ⟨_, hr⟩, hok⟩ := hn (.str "main")
  obtain ⟨paths, rfl⟩ := hok (by decide +kernel) (by decide +kernel)
  exact ⟨n, paths, hr⟩

end LockAudit.Walk
