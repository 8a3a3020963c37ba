import LockAudit.Proofs.Except
import LockAudit.Proofs.Order.Permutation
import LockAudit.Proofs.Walk.Run
import LockAudit.Walk.Collect

/-! # What an exploration records

Every path that an exploration records is the trace of a state in which a walk from the root is over or
forks. An exploration may drop states that it met before and may be cut short, but it makes up nothing.
-/

namespace LockAudit.Walk

/-! ### Sifting -/

structure Sifted (seen seen' : Seen) (children left : List State) : Prop where
  mem : ∀ c ∈ left, c ∈ children
  known : ∀ k, seen'.contains k = true ↔ seen.contains k = true ∨ ∃ c ∈ children, c.key = k
  fresh : ∀ c ∈ children, seen.contains c.key = true ∨ ∃ d ∈ left, d.key = c.key

theorem key?_eq_some {s : State} {k : Key} (h : s.key? = some k) : k = s.key := by
  unfold State.key? at h
  split at h
  · cases h
    rfl
  · cases h

/-- Sifting keeps of each new key the first state that has it. -/
theorem sift_sifted {seen seen' : Seen} {children : List State} {sifted : List (Option State)}
    (h : sift seen children = .ok (seen', sifted)) :
    Sifted seen seen' children (sifted.filterMap id) := by
  induction children generalizing seen seen' sifted with
  | nil =>
    cases h
    exact ⟨by simp, by simp, by simp⟩
  | cons c cs ih =>
    unfold sift at h
    split at h
    · cases h
    · rename_i k hk
      obtain rfl := key?_eq_some hk
      split at h
      · rename_i hc
        obtain ⟨⟨seen₁, rest⟩, hr, he⟩ := except_map_eq_ok h
        cases he
        have hs := ih hr
        refine ⟨fun d hd => List.mem_cons_of_mem _ (hs.mem d hd), ?_, ?_⟩
        · intro k
          rw [hs.known k, List.exists_mem_cons_iff]
          constructor
          · rintro (h | h)
            · exact .inl h
            · exact .inr (.inr h)
          · rintro (h | rfl | h)
            · exact .inl h
            · exact .inl hc
            · exact .inr h
        · intro d hd
          rcases List.mem_cons.mp hd with rfl | hd
          · exact .inl hc
          · exact hs.fresh d hd
      · obtain ⟨⟨seen₁, rest⟩, hr, he⟩ := except_map_eq_ok h
        cases he
        have hs := ih hr
        have hin : ∀ k, (seen.insert c.key).contains k = true ↔ c.key = k ∨ seen.contains k = true := by
          intro k
          rw [FingerprintSet.contains_insert, Bool.or_eq_true, decide_eq_true_eq, eq_comm]
        refine ⟨?_, ?_, ?_⟩
        · intro d hd
          rcases List.mem_cons.mp hd with rfl | hd
          · exact List.mem_cons_self
          · exact List.mem_cons_of_mem _ (hs.mem d hd)
        · intro k
          rw [hs.known k, hin, List.exists_mem_cons_iff]
          exact or_assoc.trans or_left_comm
        · intro d hd
          rcases List.mem_cons.mp hd with rfl | hd
          · exact .inr ⟨d, List.mem_cons_self, rfl⟩
          · rcases hs.fresh d hd with hd | ⟨f, hf, hk⟩
            · rcases (hin d.key).mp hd with hd | hd
              · exact .inr ⟨c, List.mem_cons_self, hd⟩
              · exact .inl hd
            · exact .inr ⟨f, List.mem_cons_of_mem _ hf, hk⟩

/-! ### One traversal -/

/-- What an advance can do: the traversal is over, it returns, or it goes on in the states that are left
of those which follow, in one of them or by a fork. -/
theorem advance_cases {g : CallGraph} {options : Options} {fuel : Nat} {seen : Seen}
    {log : List LogRecord} {settled : Option Trace} {s : State} {a : Advanced}
    (h : advance g options (fuel + 1) seen log settled s = .ok a) :
    (∃ t, (s.step g options = .ok (.over t) ∨ s.step g options = .ok (.onward t [])) ∧
      a.outcome = .finished (settled.getD t.trace) ∧ a.seen = seen) ∨
    (∃ t log', s.step g options = .ok (.returned t) ∧
      advance g options fuel seen log' settled t = .ok a) ∨
    (∃ t children seen' sifted, s.step g options = .ok (.onward t children) ∧ children ≠ [] ∧
      sift seen children = .ok (seen', sifted) ∧
      ((∃ only log', sifted.filterMap id = [only] ∧
        advance g options fuel seen' log'
          (if lastIsNew sifted then settled else some (settled.getD t.trace)) only = .ok a) ∨
      (∀ only, sifted.filterMap id ≠ [only]) ∧
        a.outcome = .forked (sifted.filterMap id) ∧ a.seen = seen')) := by
  unfold advance at h
  dsimp only at h
  split at h
  · cases h
  · rename_i t hstep
    cases h
    exact .inl ⟨t, .inl hstep, rfl, rfl⟩
  · rename_i t hstep
    exact .inr (.inl ⟨t, _, hstep, h⟩)
  · rename_i t hstep
    cases h
    exact .inl ⟨t, .inr hstep, rfl, rfl⟩
  · rename_i t children hne hstep
    split at h
    · cases h
    · rename_i seen' sifted hsift
      refine .inr (.inr ⟨t, children, seen', sifted, hstep, hne, hsift, ?_⟩)
      split at h
      · rename_i only ho
        exact .inl ⟨only, _, ho, h⟩
      · rename_i hno
        cases h
        exact .inr ⟨hno, rfl, rfl⟩

def Advance.states : Advance → List State
  | .finished _ => []
  | .forked states => states

def Left (g : CallGraph) (options : Options) (root : Name) (t : Trace) : Prop :=
  ∃ s, Pauses g options root s ∧ s.trace = t

theorem advance_left {g : CallGraph} {options : Options} {root : Name} {fuel : Nat} {seen : Seen}
    {log : List LogRecord} {settled : Option Trace} {s : State} {a : Advanced}
    (h : advance g options fuel seen log settled s = .ok a) (hs : Reaches g options root s)
    (hset : ∀ t ∈ settled, Left g options root t) :
    (∀ t, a.outcome = .finished t → Left g options root t) ∧
      ∀ c ∈ a.outcome.states, Reaches g options root c := by
  induction fuel generalizing seen log settled s with
  | zero => cases h
  | succ fuel ih =>
    have hgetD : ∀ t, Pauses g options root t → Left g options root (settled.getD t.trace) := by
      intro t ht
      cases settled with
      | none => exact ⟨t, ht, rfl⟩
      | some u => exact hset u rfl
    obtain ⟨t, ht, ho, _⟩ | ⟨t, _, ht, h⟩ | ⟨t, children, _, sifted, ht, _, hsift, h⟩ := advance_cases h
    · have hp : Pauses g options root t := ⟨s, hs, ht.imp_right fun h => ⟨[], h⟩⟩
      rw [ho]
      refine ⟨?_, by simp [Advance.states]⟩
      rintro _ ⟨⟩
      exact hgetD t hp
    · exact ih h (hs.tail (.returned ht)) hset
    · have hp : Pauses g options root t := ⟨s, hs, .inr ⟨children, ht⟩⟩
      have hleft : ∀ c ∈ sifted.filterMap id, Reaches g options root c := fun c hc =>
        hs.tail (.onward ht ((sift_sifted hsift).mem c hc))
      obtain ⟨only, _, ho, h⟩ | ⟨_, ho, _⟩ := h
      · refine ih h (hleft only (ho ▸ List.mem_cons_self)) ?_
        split
        · exact hset
        · rintro _ ⟨⟩
          exact hgetD t hp
      · rw [ho]
        exact ⟨by simp, hleft⟩

/-! ### All traversals of a root -/

def Recorded (g : CallGraph) (options : Options) (root : Name) (p : LockPath) : Prop :=
  p.root = root ∧ ∃ s, Pauses g options root s ∧ p.events = s.events ∧ p.degraded = s.degraded

/-- From `p` to `q` the path of a trace is kept, unless it has no acquisition or its events are known. -/
def Kept (root : Name) (t : Trace) (p q : Progress) : Prop :=
  (q.paths = p.paths ∧ q.known = p.known ∧
    (t.events.any Event.isAcquire = true → p.known.contains (t.events.map Event.canonical) = true)) ∨
  (t.events.any Event.isAcquire = true ∧
    q.paths = { root, events := t.events, degraded := t.degraded } :: p.paths ∧
    q.known = p.known.insert (t.events.map Event.canonical))

theorem keep_kept {p q : Progress} {root : Name} {t : Trace} (h : p.keep root t = .ok q) :
    q.work = p.work ∧ q.seen = p.seen ∧ Kept root t p q := by
  unfold Progress.keep at h
  dsimp only at h
  split at h
  · rename_i hnone
    cases h
    refine ⟨rfl, rfl, .inl ⟨rfl, rfl, fun ha => ?_⟩⟩
    simp [LockPath.hasAcquisition, ha] at hnone
  · rename_i hsome
    split at h
    · cases h
    · split at h
      · rename_i hknown
        cases h
        exact ⟨rfl, rfl, .inl ⟨rfl, rfl, fun _ => hknown⟩⟩
      · cases h
        refine ⟨rfl, rfl, .inr ⟨?_, rfl, rfl⟩⟩
        simpa [LockPath.hasAcquisition] using hsome

theorem absorb_cases {p q : Progress} {root : Name} {a : Advanced} (h : p.absorb root a = .ok q) :
    q.seen = a.seen ∧ q.work = a.outcome.states ++ p.work ∧
      ((∃ trace, a.outcome = .finished trace ∧ Kept root trace p q) ∨
      (∃ states, a.outcome = .forked states ∧ q.paths = p.paths ∧ q.known = p.known)) := by
  unfold Progress.absorb at h
  dsimp only at h
  split at h
  · rename_i trace ho
    obtain ⟨hw, hs, hk⟩ := keep_kept h
    exact ⟨hs, by rw [hw, ho]; rfl, .inl ⟨trace, ho, hk⟩⟩
  · rename_i states ho
    cases h
    exact ⟨rfl, by rw [ho]; rfl, .inr ⟨states, ho, rfl, rfl⟩⟩

/-- An exploration stops with what it has, or it takes over one more advance. -/
theorem exploreFrom_cases {g : CallGraph} {options : Options} {root : Name} {fuel : Nat}
    {p : Progress} {e : Exploration} (h : exploreFrom g options root (fuel + 1) p = .ok e) :
    (e.paths = p.paths.reverse ∧ e.seen = p.seen ∧ (e.cut = false → p.work = [])) ∨
    ∃ s rest a q, p.work = s :: rest ∧ p.isFull options = false ∧
      advance g options fuel p.seen p.log none s = .ok a ∧
      { p with work := rest, started := p.started + 1 }.absorb root a = .ok q ∧
      exploreFrom g options root fuel q = .ok e := by
  unfold exploreFrom at h
  split at h
  · rename_i hw
    cases h
    exact .inl ⟨rfl, rfl, fun _ => hw⟩
  · rename_i s rest hw
    split at h
    · cases h
      exact .inl ⟨rfl, rfl, fun hc => Bool.noConfusion hc⟩
    · rename_i hfull
      split at h
      · cases h
      · rename_i a ha
        split at h
        · cases h
        · rename_i q hq
          exact .inr ⟨s, rest, a, q, hw, Bool.eq_false_iff.mpr hfull, ha, hq, h⟩

/-- All paths of an exploration have traces that walks from the root can leave. -/
theorem exploreFrom_recorded {g : CallGraph} {options : Options} {root : Name} {fuel : Nat}
    {p : Progress} {e : Exploration} (h : exploreFrom g options root fuel p = .ok e)
    (hw : ∀ s ∈ p.work, Reaches g options root s)
    (hp : ∀ q ∈ p.paths, Recorded g options root q) : ∀ q ∈ e.paths, Recorded g options root q := by
  induction fuel generalizing p with
  | zero => cases h
  | succ fuel ih =>
    obtain ⟨he, _⟩ | ⟨s, rest, a, p', hwork, _, ha, hp', h⟩ := exploreFrom_cases h
    · simpa [he] using hp
    · rw [hwork] at hw
      obtain ⟨hs, hrest⟩ := List.forall_mem_cons.mp hw
      obtain ⟨hl, hstates⟩ := advance_left ha hs (by simp)
      obtain ⟨_, hw', hpaths⟩ := absorb_cases hp'
      refine ih h (hw' ▸ List.forall_mem_append.mpr ⟨hstates, hrest⟩) ?_
      obtain ⟨trace, ho, ⟨hpaths, _⟩ | ⟨_, hpaths, _⟩⟩ | ⟨_, _, hpaths, _⟩ := hpaths
      · exact hpaths ▸ hp
      · obtain ⟨t, ht, rfl⟩ := hl trace ho
        rw [hpaths]
        exact List.forall_mem_cons.mpr ⟨⟨rfl, t, ht, rfl, rfl⟩, hp⟩
      · exact hpaths ▸ hp

/-- An exploration gets under way, or the root has no body and no walk. -/
theorem explore_cases {g : CallGraph} {options : Options} {fuel : Nat} {root : Name} {e : Exploration}
    (h : explore g options fuel root = .ok e) :
    exploreFrom g options root fuel (.start root) = .ok e ∨
      e.paths = [] ∧ e.seen = .empty ∧ (State.start root).step g options = .error (.noBody root) := by
  unfold explore at h
  split at h
  · cases h
  · rename_i i hi
    split at h
    · rename_i hbody
      cases h
      refine .inr ⟨rfl, rfl, ?_⟩
      simp [State.step, State.start, blockAt, hi, Option.isNone_iff_eq_none.mp hbody]
    · exact .inl h

theorem reaches_of_mem_start {g : CallGraph} {options : Options} {root : Name} {s : State}
    (h : s ∈ (Progress.start root).work) : Reaches g options root s := by
  obtain rfl := List.mem_singleton.mp h
  exact .refl

theorem explore_recorded {g : CallGraph} {options : Options} {root : Name} {fuel : Nat}
    {e : Exploration} (h : explore g options fuel root = .ok e) :
    ∀ p ∈ e.paths, Recorded g options root p := by
  rcases explore_cases h with h | ⟨hpaths, _⟩
  · exact exploreFrom_recorded h (fun _ => reaches_of_mem_start) (by simp [Progress.start])
  · simp [hpaths]

/-! ### All roots -/

theorem mem_sortedRoots {roots : List Name} {root : Name} (h : root ∈ sortedRoots roots) :
    root ∈ roots :=
  mem_of_mem_eraseDupsBy ((orderOn_perm id _).mem_iff.mp h)

theorem mem_startedRoots {deadline : Option Number} {clock : Clock} {roots : List Name} {root : Name}
    (h : root ∈ startedRoots deadline clock roots) : root ∈ roots := by
  obtain ⟨⟨r, i⟩, hr, rfl⟩ := List.mem_map.mp h
  have hz := (List.mem_filter.mp hr).1
  exact List.fst_mem_of_mem_zipIdx hz

/-- Every collected path was recorded by the exploration of one of the roots. -/
theorem collect_recorded {g : CallGraph} {options : Options} {fuel : Nat} {clock : Clock}
    {roots : List Name} {c : Collection} (h : collect g options fuel clock roots = .ok c) :
    ∀ p ∈ c.paths, ∃ root ∈ roots, Recorded g options root p := by
  unfold collect at h
  obtain ⟨_, _, h⟩ := except_bind_eq_ok h
  obtain ⟨deadline, _, h⟩ := except_bind_eq_ok h
  obtain ⟨explorations, he, h⟩ := except_bind_eq_ok h
  cases h
  intro p hp
  obtain ⟨e, hm, hp⟩ := List.mem_flatMap.mp hp
  obtain ⟨root, hr, hx⟩ := mem_mapM_eq_ok (except_mapError_eq_ok he) hm
  exact ⟨root, mem_sortedRoots (mem_startedRoots hr), explore_recorded hx p (LockPath.mem_sorted.mp hp)⟩

/-! ### Releases on collected paths -/

/-- In every state that steps lead to, and so on every collected path, each release ends an earlier
acquisition of the same guard that no other release ends. -/
theorem events_matched (g : CallGraph) (options : Options) :
    (∀ root s, Reachable g options root s → Matched s.events) ∧
    ∀ fuel clock roots c, collect g options fuel clock roots = .ok c →
      ∀ p ∈ c.paths, Matched p.events := by
  refine ⟨fun root s h => h.tracked.matched, ?_⟩
  intro fuel clock roots c h p hp
  obtain ⟨root, _, _, s, hs, he, _⟩ := collect_recorded h p hp
  rw [he]
  exact hs.reachable.tracked.matched

/-- `main` calls `open`, which returns its guard; the guard ends with a scope of `main`, after a manual
guard was acquired that nothing releases. -/
def handover : CallGraph :=
  let lock (name : String) : Lock := { site := .static, name := .str name }
  let inst (name : String) (blocks : List Block) : Instance :=
    { id := .str name, defPath := .str name, typeArgs := [], signature := .str "", method := .null,
      body := some { blocks } }
  { instances := [
      inst "main" [
        { statements := []
          terminator := .call {
            site := .str "s", callee := .str "open", signature := .null, method := .null,
            target := some (.int 1), destination := .str "g", location := .unknown } },
        { statements := [
            .acquire (.str "m") (lock "B") .spinMutex .unknown (.bool false),
            .scopeExit [.str "g"] .unknown]
          terminator := .ret .null .unknown }],
      inst "open" [
        { statements := [.acquire (.str "x") (lock "A") .mutex .unknown (.bool true)]
          terminator := .ret (.str "x") .unknown }]]
    edges := []
    unresolved := []
    callTable := [((.str "main", .str "s"), [.str "open"])] }

/-- On the path of a guard that is returned, its release names its acquisition. -/
theorem events_matched_handover :
    ∃ c p, collect handover {} 9 {} [.str "main"] = .ok c ∧ p ∈ c.paths ∧
      p.events.map Event.acquired = [none, none, some 0] ∧ Matched p.events := by
  have h : (collect handover {} 9 {} [.str "main"]).map
      (fun c => c.paths.map fun p => p.events.map Event.acquired) = .ok [[none, none, some 0]] := by
    decide +kernel
  obtain ⟨c, hc, h⟩ := except_map_eq_ok h
  obtain ⟨p, hp, he⟩ := List.map_eq_singleton_iff.mp h
  have hm : p ∈ c.paths := by simp [hp]
  exact ⟨c, p, hc, hm, he, (events_matched _ _).2 _ _ _ c hc p hm⟩

end LockAudit.Walk
