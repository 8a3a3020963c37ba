import LockAudit.Analysis
import LockAudit.Proofs.Detection.Answer
import LockAudit.Proofs.Detection.Grounds
import LockAudit.Proofs.Walk.Recording

/-! # Findings are exhibited by walks

Every diagnosis that an analysis reports is seen on a walk of the program: the walk holds the first lock
and acquires the second one next. Nothing that happens on the way from walks to reports, neither the
dropping of states met before, nor the replay of events, nor the merging of occurrences in whatever order
they come, makes up a finding.
-/

namespace LockAudit

open Walk Detection

/-- A walk from one of the roots stands in the state `s` right before the acquisition `second`, and holds
the guard that `first` acquired. -/
structure Exhibits (g : CallGraph) (options : Options) (roots : List Name) (s : State)
    (first second : Event) : Prop where
  acquires : ∃ root ∈ roots, ∃ frame callers guard lock kind location raii,
    StandsBefore g options root s (.acquire guard lock kind location raii) ∧
      s.frames = frame :: callers ∧ second = s.acquisition frame guard lock kind location
  holds : ∃ h ∈ s.held, s.events[h.index]? = some first ∧ first.op = .acquire

/-- Two acquisitions of one static lock, or of one field through the same receiver in one activation. -/
def SurelyOneLock (first second : Event) : Prop :=
  (first.lock.site = .static ∧ second.lock.site = .static ∧
    first.lock.name.same second.lock.name = true) ∨
  (first.lock.site = .field ∧ second.lock.site = .field ∧ first.aliasClass = second.aliasClass ∧
    first.lock.receiver ≠ .null ∧ first.lock.receiver.equals second.lock.receiver = true ∧
    first.frame = second.frame ∧ first.inst.equals second.inst = true)

/-- Only static locks, and fields through one receiver in one activation, are aliases of the exact tier. -/
theorem surelyOneLock_of_exact {n : Nesting}
    (h : n.first.event.lock.tier? n.second.event.lock n.sameActivation = some .exact) :
    SurelyOneLock n.first.event n.second.event := by
  have hclass : n.first.event.lock.aliasClass = n.second.event.lock.aliasClass := tier?_eq_some h
  simp only [Lock.tier?, hclass, ne_eq, not_true_eq_false, if_false] at h
  unfold Lock.aliasClass at hclass
  cases hf : n.first.event.lock.site with
  | heap => simp [hf] at h
  | static =>
    cases hs : n.second.event.lock.site <;> simp [hf, hs] at hclass
    exact .inl ⟨hf, hs, Name.same_iff.mpr hclass⟩
  | field =>
    cases hs : n.second.event.lock.site <;> simp [hf, hs] at hclass
    simp only [hf] at h
    split at h
    · rename_i hsame
      simp only [Nesting.sameActivation, Bool.and_eq_true, bne_iff_ne, beq_iff_eq] at hsame
      obtain ⟨⟨⟨hframe, hinst⟩, hnull⟩, hrec⟩ := hsame
      refine .inr ⟨hf, hs, ?_, hnull, hrec, hframe, hinst⟩
      simp [Event.aliasClass, Lock.aliasClass, hf, hs, hclass]
    · cases h

/-- A nesting on a recorded path is exhibited by a walk, which is degraded only if the path is. -/
theorem Walk.Recorded.exhibits {g : CallGraph} {options : Options} {roots : List Name} {root : Name}
    {p : LockPath} (hp : Recorded g options root p) (hroot : root ∈ roots) {n : Nesting}
    (hn : n ∈ nestings p) :
    ∃ s, Exhibits g options roots s n.first.event n.second.event ∧
      (s.degraded = true → p.degraded = true) := by
  obtain ⟨_, t, ht, hevents, hdegraded⟩ := hp
  obtain ⟨hsecond, hacquire, hfirst⟩ := (mem_nestings p n).mp hn
  rw [hevents] at hsecond hfirst
  obtain ⟨s, frame, callers, guard, lock, kind, location, raii, hb, hf, hs, he, hd⟩ :=
    ht.enacted n.second.index n.second.event hsecond hacquire
  rw [← hs] at hfirst
  obtain ⟨hindex, hop, _⟩ := (mem_replay s.events n.first).mp hfirst
  have hheld : n.first.index ∈ s.held.map Held.index := by
    rw [← hb.reachable.tracked.replayed]
    exact List.mem_map_of_mem hfirst
  obtain ⟨h, hh, hi⟩ := List.mem_map.mp hheld
  refine ⟨s, ⟨?_, h, hh, hi ▸ hindex, hop⟩, hdegraded ▸ hd⟩
  exact ⟨root, hroot, frame, callers, guard, lock, kind, location, raii, hb, hf, he⟩

theorem collect_exhibits {g : CallGraph} {options : Options} {fuel : Nat} {clock : Clock}
    {roots : List Name} {c : Collection} (h : collect g options fuel clock roots = .ok c)
    {degraded : Bool} {n : Nesting} (hn : NestedOn c.paths degraded n) :
    ∃ s, Exhibits g options roots s n.first.event n.second.event ∧
      (s.degraded = true → degraded = true) := by
  obtain ⟨p, hp, rfl, hn⟩ := hn
  obtain ⟨root, hroot, hr⟩ := collect_recorded h p hp
  exact hr.exhibits hroot hn

theorem ofInstances_eq_ok {instances : List Instance} {g : CallGraph}
    (h : CallGraph.ofInstances instances = .ok g) : g = .build instances := by
  unfold CallGraph.ofInstances at h
  split at h
  · cases h
  · cases h
    rfl

/-- The report is one of those that detection makes of the paths of a program. The paths are a set, which
may be gone through in any order. -/
def MayReport (options : Options) (fuel : Nat) (clock : Clock) (p : Program) (r : Report) : Prop :=
  ∃ c, collect (.build p.instances) options fuel clock p.roots = .ok c ∧
    ∃ paths, (∀ q, q ∈ paths ↔ q ∈ c.paths) ∧
      ∃ found, detect options paths = .ok found ∧ r ∈ found.reports

theorem mayReport_of_analyze {options : Options} {fuel : Nat} {clock : Clock} {p : Program} {a : Analysis}
    (h : analyze options fuel clock p = .ok a) {r : Report} (hr : r ∈ a.verdict.reports) :
    MayReport options fuel clock p r := by
  unfold analyze at h
  split at h
  · cases h
    cases hr
  · unfold analyzeUnit at h
    obtain ⟨_, _, h⟩ := except_bind_eq_ok h
    obtain ⟨g, hg, h⟩ := except_bind_eq_ok h
    obtain ⟨_, _, h⟩ := except_bind_eq_ok h
    obtain ⟨c, hc, h⟩ := except_bind_eq_ok h
    obtain ⟨found, hd, h⟩ := except_bind_eq_ok h
    cases h
    obtain rfl := ofInstances_eq_ok (except_mapError_eq_ok hg)
    exact ⟨c, except_mapError_eq_ok hc, c.paths, fun _ => .rfl, found, except_mapError_eq_ok hd, hr⟩

structure SamePlaces (first' second' first second : Event) : Prop where
  firstLocation : first'.location = first.location
  secondLocation : second'.location = second.location
  firstClass : first'.aliasClass = first.aliasClass
  secondClass : second'.aliasClass = second.aliasClass

/-- The diagnosis shows what a walk from one of the roots does: it acquires the second lock while it holds
the first. Each call chain is that of such a walk at the same locations and on the same alias classes. -/
structure ExhibitedBy (g : CallGraph) (options : Options) (roots : List Name) (d : Diagnosis)
    (first second : Event) : Prop where
  exhibits : ∃ s, Exhibits g options roots s first second
  shows : Shows d first second
  chains : ∀ chain ∈ d.chains, ∃ s first' second', Exhibits g options roots s first' second' ∧
    SamePlaces first' second' first second ∧ s.chain = chain ∧ second'.chain = chain

/-- A walk that is fully tracked acquires surely one lock twice at the given places, with guards that block. -/
def SurelyRelocks (g : CallGraph) (options : Options) (roots : List Name) (first second : Event) : Prop :=
  ∃ s first' second', Exhibits g options roots s first' second' ∧ SamePlaces first' second' first second ∧
    s.degraded = false ∧ SurelyOneLock first' second' ∧ first'.kind.isReentrant = false ∧
    second'.kind.isReentrant = false ∧ ¬(first'.kind.isShared = true ∧ second'.kind.isShared = true)

/-- Every report of an analysis is one that detection may make of the collected paths. Whatever the order in
which it goes through them, each diagnosis of each of its reports is exhibited by a walk of the program, and
a double lock is one of a single class. If it is graded probable, some walk surely relocks. -/
theorem findings_exhibited (options : Options) (fuel : Nat) (clock : Clock) (p : Program) :
    (∀ a, analyze options fuel clock p = .ok a →
      ∀ r ∈ a.verdict.reports, MayReport options fuel clock p r) ∧
    ∀ r, MayReport options fuel clock p r → ∀ d ∈ r.subject.diagnoses, ∃ first second,
      ExhibitedBy (.build p.instances) options p.roots d first second ∧
      (r.subject = .doubleLock d → first.aliasClass = second.aliasClass ∧
        (r.possibility = .probably →
          SurelyRelocks (.build p.instances) options p.roots first second)) := by
  refine ⟨fun a h r hr => mayReport_of_analyze h hr, ?_⟩
  rintro r ⟨c, hc, paths, hpaths, found, hfound, hr⟩ d hd
  have hanswered := answered hfound
  rw [hanswered.reports] at hr
  obtain ⟨n, hg, hdouble⟩ := reports_grounded hanswered.keyed hr hd
  have hcollected : ∀ {degraded m}, NestedOn paths degraded m → NestedOn c.paths degraded m := by
    rintro degraded m ⟨q, hq, hm⟩
    exact ⟨q, (hpaths q).mp hq, hm⟩
  refine ⟨n.first.event, n.second.event, ⟨?_, hg.shows, ?_⟩, fun hsubject => ?_⟩
  · obtain ⟨degraded, hn⟩ := hg.nested
    obtain ⟨s, hs, _⟩ := collect_exhibits hc (hcollected hn)
    exact ⟨s, hs⟩
  · intro chain hchain
    obtain ⟨_, m, hm, hp, rfl⟩ := hg.chains chain hchain
    obtain ⟨s', hs', _⟩ := collect_exhibits hc (hcollected hm)
    refine ⟨s', _, _, hs', ⟨hp.first, hp.second, hp.firstClass, hp.secondClass⟩, ?_, rfl⟩
    obtain ⟨_, _, _, _, _, _, _, _, _, _, _, he⟩ := hs'.acquires
    rw [he]
    rfl
  · obtain ⟨hclass, hprobable⟩ := hdouble hsubject
    refine ⟨hclass, fun hprob => ?_⟩
    obtain ⟨m, hm, hp, hblocks⟩ := hprobable hprob
    obtain ⟨s', hs', htracked⟩ := collect_exhibits hc (hcollected hm)
    refine ⟨s', _, _, hs', ⟨hp.first, hp.second, hp.firstClass, hp.secondClass⟩, ?_,
      surelyOneLock_of_exact hblocks.exact, hblocks.first, hblocks.second, ?_⟩
    · exact Bool.eq_false_iff.mpr fun hd => Bool.false_ne_true (htracked hd)
    · rw [← Bool.and_eq_true]
      exact Bool.eq_false_iff.mp hblocks.unshared

def relocking : Program :=
  let acquire (guard : String) (line : Int) : Statement :=
    .acquire (.str guard) { site := .static, name := .str "A" } .mutex { file := "main.rs", line }
      (.bool true)
  { unit := .str "unit", roots := [.str "main"], codegen := true, buildScript := false
    instances := [
      { id := .str "main", defPath := .str "main", typeArgs := [], signature := .str "",
        method := .null
        body := some { blocks := [
          { statements := [acquire "a" 1, acquire "b" 2], terminator := .ret .null .unknown }] } }] }

/-- The double lock of a program that surely relocks is reported, and a walk exhibits it. -/
theorem findings_exhibited_relocking :
    ∃ a r d, analyze {} 9 {} relocking = .ok a ∧ r ∈ a.verdict.reports ∧ r.subject = .doubleLock d ∧
      r.possibility = .probably ∧ ∃ first second,
        ExhibitedBy (.build relocking.instances) {} relocking.roots d first second ∧
        SurelyRelocks (.build relocking.instances) {} relocking.roots first second := by
  have h : (analyze {} 9 {} relocking).toOption.map
      (fun a => a.verdict.reports.map fun r => (r.kind, r.possibility)) =
        some [("DoubleLock", .probably)] := by
    decide +kernel
  obtain ⟨hmay, hexhibited⟩ := findings_exhibited {} 9 {} relocking
  cases ha : analyze {} 9 {} relocking with
  | error e =>
    rw [ha] at h
    cases h
  | ok a =>
    rw [ha] at h
    obtain ⟨⟨possibility, subject, explanation⟩, hr, hk⟩ :=
      List.map_eq_singleton_iff.mp (Option.some.inj h)
    obtain ⟨hkind, hprob⟩ := Prod.mk.inj hk
    cases subject with
    | conflictLock ds => simp [Report.kind, Subject.kind] at hkind
    | doubleLock d =>
      have hm : _ ∈ a.verdict.reports := hr ▸ List.mem_cons_self
      obtain ⟨first, second, hby, hdouble⟩ := hexhibited _ (hmay a ha _ hm) d List.mem_cons_self
      exact ⟨a, _, d, rfl, hm, rfl, hprob, first, second, hby, (hdouble rfl).2 hprob⟩

end LockAudit
