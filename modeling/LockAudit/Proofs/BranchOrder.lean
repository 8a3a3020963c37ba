import LockAudit.Proofs.Detection.PathOrder
import LockAudit.Proofs.Liveness
import LockAudit.Proofs.Walk.Naming

/-! # The order of branches

Programs that differ in the order in which jumps list their targets have the same complete walks. They have
the same paths and double locks, too, where each traversal is recorded as it ends and the events of a walk
tell whether it is degraded. Where they do not, the order decides which paths there are and how double locks
are graded.
-/

namespace LockAudit

open Walk Detection

/-! ### Programs -/

theorem Terminator.Rebranched.mem_successors {t t' : Terminator} (h : t.Rebranched t') {target : Target} :
    target ∈ t'.successors ↔ target ∈ t.successors := by
  cases h with
  | goto hperm => exact hperm.mem_iff
  | call c => exact Iff.rfl
  | ret value location => exact Iff.rfl

theorem Body.Rebranched.sound {b b' : Body} (h : b.Rebranched b') (hb : b.Sound) : b'.Sound := by
  have hlength : b.blocks.length = b'.blocks.length := h.length_eq
  refine ⟨hlength ▸ hb.nonempty, ?_⟩
  intro block' hblock' target htarget
  obtain ⟨block, hblock, hrel⟩ := forall₂_exists_left h hblock'
  rw [← hlength]
  exact hb.inside block hblock target (hrel.terminator.mem_successors.mp htarget)

namespace Instance.Rebranched

variable {i i' : Instance} (h : i.Rebranched i')

include h

theorem exists_body {body' : Body} (hb' : i'.body = some body') :
    ∃ body, i.body = some body ∧ body.Rebranched body' := by
  obtain ⟨_, hnone⟩ | ⟨body, body'', hb, hb'', hrel⟩ := option_rel_cases h.body
  · rw [hb'] at hnone
    cases hnone
  · cases hb'.symm.trans hb''
    exact ⟨body, hb, hrel⟩

theorem check_eq_ok (hi : i.check = .ok ()) : i'.check = .ok () := by
  refine Instance.check_eq_ok fun body' hb' => ?_
  obtain ⟨body, hb, hrel⟩ := h.exists_body hb'
  exact hrel.sound (Instance.sound_of_check hi hb)

theorem isKeyed (hi : CallGraph.instanceIsKeyed i = true) : CallGraph.instanceIsKeyed i' = true := by
  have hsignature : i'.signature = i.signature := by rw [h.rest]
  have hcalls : (i'.body.all fun b => b.calls.all CallGraph.callIsKeyed) =
      i.body.all fun b => b.calls.all CallGraph.callIsKeyed := by
    obtain ⟨hb, hb'⟩ | ⟨body, body', hb, hb', hrel⟩ := option_rel_cases h.body
    · rw [hb, hb']
    · rw [hb, hb', Option.all_some, Option.all_some, hrel.calls_eq]
  rw [CallGraph.instanceIsKeyed, hsignature, hcalls]
  exact hi

theorem locksNamed (hi : i.locksNamed = true) : i'.locksNamed = true := by
  cases hb' : i'.body with
  | none => rw [Instance.locksNamed, hb', Option.all_none]
  | some body' =>
    obtain ⟨body, hb, hrel⟩ := h.exists_body hb'
    rw [Instance.locksNamed, hb, Option.all_some, List.all_eq_true] at hi
    rw [Instance.locksNamed, hb', Option.all_some, List.all_eq_true]
    intro block' hblock'
    obtain ⟨block, hblock, hblocks⟩ := forall₂_exists_left hrel hblock'
    rw [hblocks.statements]
    exact hi block hblock

end Instance.Rebranched

namespace Program.Rebranched

variable {p q : Program} (h : p.Rebranched q)

include h

theorem exists_instance {i' : Instance} (hi' : i' ∈ q.instances) :
    ∃ i ∈ p.instances, i.Rebranched i' :=
  forall₂_exists_left h.instances hi'

theorem roots_eq : q.roots = p.roots := by
  rw [h.rest]

theorem ids_eq : q.instances.map Instance.id = p.instances.map Instance.id := by
  have hinstances := h.instances
  generalize p.instances = xs, q.instances = ys at hinstances
  induction hinstances with
  | nil => rfl
  | cons hi _ ih => rw [List.map_cons, List.map_cons, hi.id_eq, ih]

theorem graph (hp : p.Proper) : p.graph.Rebranched q.graph :=
  CallGraph.build_rebranched h.instances hp.named.texts

/-- Whether a program is a proper one does not depend on the order of its branches. -/
theorem proper (hp : p.Proper) : q.Proper := by
  obtain ⟨hkeys, hroots, hchecks⟩ := Program.check_eq_ok_iff.mp hp.consistent
  refine ⟨Program.check_eq_ok_iff.mpr ⟨?_, ?_, ?_⟩, ⟨?_, ?_⟩, ?_⟩
  · rw [h.roots_eq]
    exact hkeys
  · intro root hroot
    rw [h.roots_eq] at hroot
    obtain ⟨i, hi, hsame⟩ := hroots root hroot
    have hid : i.id ∈ q.instances.map Instance.id := by
      rw [h.ids_eq]
      exact List.mem_map_of_mem hi
    obtain ⟨i', hi', hids⟩ := List.mem_map.mp hid
    exact ⟨i', hi', by rw [hids]; exact hsame⟩
  · intro i' hi'
    obtain ⟨i, hi, hrel⟩ := h.exists_instance hi'
    exact hrel.check_eq_ok (hchecks i hi)
  · intro i' hi'
    obtain ⟨i, hi, hrel⟩ := h.exists_instance hi'
    rw [hrel.id_eq]
    exact hp.named.texts i hi
  · rw [h.ids_eq]
    exact hp.named.nodup
  · intro i' hi'
    obtain ⟨i, hi, hrel⟩ := h.exists_instance hi'
    exact hrel.isKeyed (hp.keyed i hi)

theorem locksNamed (hp : ∀ i ∈ p.instances, i.locksNamed = true) :
    ∀ i ∈ q.instances, i.locksNamed = true := by
  intro i' hi'
  obtain ⟨i, hi, hrel⟩ := h.exists_instance hi'
  exact hrel.locksNamed (hp i hi)

theorem skipReason?_eq (options : Options) : skipReason? options q = skipReason? options p := by
  rw [h.rest]
  rfl

end Program.Rebranched

/-! ### Collections -/

theorem Program.Proper.isText_root {p : Program} (hp : p.Proper) {root : Name} (hroot : root ∈ p.roots) :
    root.isText = true := by
  obtain ⟨i, hi, hsame⟩ := p.exists_instance_of_root hp.consistent hroot
  exact Name.isText_of_same hsame (hp.named.texts i hi)

theorem startedRoots_none (clock : Clock) (roots : List Name) : startedRoots none clock roots = roots := by
  simp [startedRoots, isLate]

def Collected (g : CallGraph) (options : Options) (fuel : Nat) (roots : List Name)
    (paths : List LockPath) : Prop :=
  ∀ l, l ∈ paths ↔ ∃ root ∈ sortedRoots roots, ∃ e, explore g options fuel root = .ok e ∧ l ∈ e.paths

/-- Without a time budget, paths are collected from roots all of which can be explored. -/
theorem Program.Proper.collect_of_explore {p : Program} (hp : p.Proper) {options : Options}
    (hbudget : options.timeBudget = none) {fuel : Nat}
    (h : ∀ root ∈ p.roots, ∃ e, explore p.graph options fuel root = .ok e) (clock : Clock) :
    ∃ c, collect p.graph options fuel clock p.roots = .ok c ∧
      Collected p.graph options fuel p.roots c.paths := by
  have hroots : Walk.checkRoots p.graph p.roots = .ok () :=
    checkRoots_eq_ok (fun _ => hp.isText_root) (fun _ => p.contains_root hp.consistent)
  have hdeadline : deadline options clock = .ok none := by rw [deadline, hbudget]
  obtain ⟨es, hes⟩ : ∃ es, (sortedRoots p.roots).mapM (explore p.graph options fuel) = .ok es := by
    cases hm : (sortedRoots p.roots).mapM (explore p.graph options fuel) with
    | ok es => exact ⟨es, rfl⟩
    | error fault =>
      obtain ⟨root, hroot, hfault⟩ := mapM_eq_error hm
      obtain ⟨e, he⟩ := h root (mem_sortedRoots hroot)
      rw [he] at hfault
      cases hfault
  unfold collect
  rw [hroots, hdeadline]
  simp only [bind, Except.bind, startedRoots_none, hes, Except.mapError]
  refine ⟨_, rfl, fun l => ?_⟩
  simp only [List.mem_flatMap, LockPath.mem_sorted]
  constructor
  · rintro ⟨e, he, hl⟩
    obtain ⟨root, hroot, hexplore⟩ := mem_mapM_eq_ok hes he
    exact ⟨root, hroot, e, hexplore, hl⟩
  · rintro ⟨root, hroot, e, hexplore, hl⟩
    obtain ⟨e', he', hexplore'⟩ := exists_mem_of_mapM_eq_ok hes hroot
    rw [hexplore] at hexplore'
    cases hexplore'
    exact ⟨e, he', hl⟩

/-- The unit is skipped or has the reports of the paths that are collected. -/
theorem Program.Proper.outcome_of_textual {p : Program} (hp : p.Proper) {options : Options} {fuel : Nat}
    {clock : Clock} {c : Collection} (hc : collect p.graph options fuel clock p.roots = .ok c)
    (htextual : Textual c.paths) :
    outcome (analyze options fuel clock p) = .ok (match skipReason? options p with
      | some reason => (some reason.text, [])
      | none => (none, reports options c.paths)) := by
  obtain ⟨found, hfound⟩ := htextual.detect options
  rw [hp.outcome_eq]
  cases skipReason? options p with
  | some reason => rfl
  | none =>
    simp only [hc, hfound, Except.mapError, bind, Except.bind, Except.map, (answered hfound).reports]

/-! ### Double locks -/

/-- Two lists of reports show the same double locks in the same order, with the same grades, each as the
paths of its side have it. -/
def SameDoubleLocks (paths paths' : List LockPath) (rs rs' : List Report) : Prop :=
  ∃ keys : List DoubleLockKey,
    List.Forall₂ (ReportsDoubleLock paths) keys (rs.filter fun r => r.kind = "DoubleLock") ∧
    List.Forall₂ (ReportsDoubleLock paths') keys (rs'.filter fun r => r.kind = "DoubleLock") ∧
    (rs'.filter fun r => r.kind = "DoubleLock").map Report.possibility =
      (rs.filter fun r => r.kind = "DoubleLock").map Report.possibility

structure SamePaths (paths paths' : List LockPath) : Prop where
  forth : ∀ l ∈ paths, ∃ l' ∈ paths', l'.canonical = l.canonical
  back : ∀ l' ∈ paths', ∃ l ∈ paths, l.canonical = l'.canonical

theorem Detection.Relocks.exists_alike {paths paths' : List LockPath} {k : DoubleLockKey} {p : LockPath}
    {n : Nesting} (h : Relocks paths k p n) (hsame : ∀ l ∈ paths, ∃ l' ∈ paths', l'.canonical = l.canonical) :
    ∃ q m, Relocks paths' k q m ∧ q.degraded = p.degraded ∧ m.Alike n := by
  obtain ⟨q, hq, hqp⟩ := hsame p h.path
  obtain ⟨m, hm, hmn⟩ := h.on.exists_alike hqp
  have hfirst := (unspelled_congr hmn.first).2.2.1
  have hsecond := (unspelled_congr hmn.second).2.2.1
  exact ⟨q, m, ⟨hq, hm, hfirst.trans h.first, hsecond.trans h.second, hmn.firstClass.trans h.firstClass,
    hmn.secondClass.trans h.secondClass⟩, degraded_congr hqp, hmn⟩

namespace SamePaths

variable {paths paths' : List LockPath} (h : SamePaths paths paths') (k : DoubleLockKey)

include h

theorem relocks_iff : (∃ p n, Relocks paths' k p n) ↔ ∃ p n, Relocks paths k p n := by
  constructor
  · rintro ⟨p, n, hn⟩
    obtain ⟨q, m, hm, _⟩ := hn.exists_alike h.back
    exact ⟨q, m, hm⟩
  · rintro ⟨p, n, hn⟩
    obtain ⟨q, m, hm, _⟩ := hn.exists_alike h.forth
    exact ⟨q, m, hm⟩

theorem surelyBlocks_iff :
    (∃ p n, Relocks paths' k p n ∧ p.degraded = false ∧ n.SurelyBlocks) ↔
      ∃ p n, Relocks paths k p n ∧ p.degraded = false ∧ n.SurelyBlocks := by
  constructor
  · rintro ⟨p, n, hn, hdegraded, hblocks⟩
    obtain ⟨q, m, hm, hq, hmn⟩ := hn.exists_alike h.back
    exact ⟨q, m, hm, hq.trans hdegraded, hmn.surelyBlocks hblocks⟩
  · rintro ⟨p, n, hn, hdegraded, hblocks⟩
    obtain ⟨q, m, hm, hq, hmn⟩ := hn.exists_alike h.forth
    exact ⟨q, m, hm, hq.trans hdegraded, hmn.surelyBlocks hblocks⟩

end SamePaths

/-- Reports that are graded by the same condition on their subjects have the same grades. -/
theorem map_possibility_eq {κ : Type} {P : κ → Prop} {keys : List κ} {rs rs' : List Report}
    (h : List.Forall₂ (fun k r => r.possibility = .probably ↔ P k) keys rs)
    (h' : List.Forall₂ (fun k r => r.possibility = .probably ↔ P k) keys rs') :
    rs'.map Report.possibility = rs.map Report.possibility := by
  induction h generalizing rs' with
  | nil =>
    cases h'
    rfl
  | cons hr _ ih =>
    cases h' with
    | cons hr' hrs' => rw [List.map_cons, List.map_cons, possibility_eq hr' hr, ih hrs']

/-- The reports of double locks depend on nothing but what the paths are. -/
theorem sameDoubleLocks_of_samePaths {paths paths' : List LockPath} (h : Textual paths)
    (h' : Textual paths') (hsame : SamePaths paths paths') (options : Options) :
    SameDoubleLocks paths paths' (reports options paths) (reports options paths') := by
  obtain ⟨keys, hkeys, hascend, hreports⟩ := h.doubleLockReports
  obtain ⟨keys', hkeys', hascend', hreports'⟩ := h'.doubleLockReports
  obtain rfl : keys' = keys := by
    refine eq_of_rising id hascend' hascend fun k => ?_
    rw [hkeys, hkeys', hsame.relocks_iff]
  refine ⟨keys', ?_, ?_, ?_⟩
  · rw [filter_doubleLocks]
    exact hreports
  · rw [filter_doubleLocks]
    exact hreports'
  · rw [filter_doubleLocks, filter_doubleLocks]
    -- the reports of the second side are graded by what the paths of the first side show
    have hgraded' := hreports'.imp fun k _ hr => hr.graded.trans (hsame.surelyBlocks_iff k)
    exact map_possibility_eq (hreports.imp fun _ _ hr => hr.graded) hgraded'

/-! ### The order of branches -/

section Rebranched

variable {p q : Program} (h : p.Rebranched q) (hp : p.Proper) {options : Options} {fuel fuel' : Nat}

include h hp

/-- Explorations that are not cut short traverse the same walks. -/
theorem finals_iff_of_rebranched {root : Name} {e e' : Exploration}
    (he : explore p.graph options fuel root = .ok e) (hcut : e.cut = false)
    (he' : explore q.graph options fuel' root = .ok e') (hcut' : e'.cut = false)
    (mark : List Event × Bool) :
    (∃ t ∈ traversals q.graph options root fuel' (.start root), t.final.mark = mark) ↔
      ∃ t ∈ traversals p.graph options root fuel (.start root), t.final.mark = mark := by
  rw [← explore_finals he hcut, ← explore_finals he' hcut']
  simp only [completes_iff_of_rebranched (h.graph hp)]

/-- Both programs have the same complete walks, so what no walk of the one leaves open, none of the other
does. -/
theorem unambiguous_of_rebranched {root : Name} {e e' : Exploration}
    (he : explore p.graph options fuel root = .ok e) (hcut : e.cut = false)
    (he' : explore q.graph options fuel' root = .ok e') (hcut' : e'.cut = false)
    (hflags : Unambiguous (traversals p.graph options root fuel (.start root))) :
    Unambiguous (traversals q.graph options root fuel' (.start root)) := by
  have hfinals := finals_iff_of_rebranched h hp he hcut he' hcut'
  intro t ht u hu hacquires hevents
  obtain ⟨t', ht', htm⟩ := (hfinals _).mp ⟨t, ht, rfl⟩
  obtain ⟨u', hu', hum⟩ := (hfinals _).mp ⟨u, hu, rfl⟩
  have hacquires' : t'.final.events.any Event.isAcquire = true := by
    rw [← any_isAcquire_mark, htm, any_isAcquire_mark]
    exact hacquires
  have hevents' : t'.final.mark.1 = u'.final.mark.1 := by rw [htm, hum, hevents]
  have hsame := hflags t' ht' u' hu' hacquires' hevents'
  rw [show t'.final.degraded = t.final.degraded from congrArg Prod.snd htm,
    show u'.final.degraded = u.final.degraded from congrArg Prod.snd hum] at hsame
  exact hsame

theorem marks_iff_of_rebranched {root : Name} {e e' : Exploration}
    (he : explore p.graph options fuel root = .ok e) (hcut : e.cut = false)
    (he' : explore q.graph options fuel' root = .ok e') (hcut' : e'.cut = false)
    (hrecords : Undistorted (traversals p.graph options root fuel (.start root)))
    (hrecords' : Undistorted (traversals q.graph options root fuel' (.start root)))
    (hflags : Unambiguous (traversals p.graph options root fuel (.start root)))
    (mark : List Event × Bool) :
    (∃ l ∈ e'.paths, l.mark = mark) ↔ ∃ l ∈ e.paths, l.mark = mark := by
  have hflags' := unambiguous_of_rebranched h hp he hcut he' hcut' hflags
  rw [explore_marks he hcut hrecords hflags, explore_marks he' hcut' hrecords' hflags']
  simp only [completes_iff_of_rebranched (h.graph hp)]

end Rebranched

/-- Every root can be explored, and no exploration is cut short. -/
def Program.Explored (p : Program) (options : Options) (fuel : Nat) : Prop :=
  ∀ root ∈ p.roots, ∃ e, explore p.graph options fuel root = .ok e ∧ e.cut = false

/-- The paths of a proper program are collected and have texts for names. -/
theorem Program.Proper.exists_collection {p : Program} (hp : p.Proper)
    (hnamed : ∀ i ∈ p.instances, i.locksNamed = true) {options : Options}
    (hbudget : options.timeBudget = none) {fuel : Nat} (hexplored : p.Explored options fuel)
    (clock : Clock) :
    ∃ c, collect p.graph options fuel clock p.roots = .ok c ∧ Textual c.paths ∧
      Collected p.graph options fuel p.roots c.paths := by
  have hexplore : ∀ root ∈ p.roots, ∃ e, explore p.graph options fuel root = .ok e := by
    intro root hroot
    obtain ⟨e, he, _⟩ := hexplored root hroot
    exact ⟨e, he⟩
  obtain ⟨c, hc, hmem⟩ := hp.collect_of_explore hbudget hexplore clock
  refine ⟨c, hc, ?_, hmem⟩
  intro l hl
  obtain ⟨root, hroot, e, he, hl⟩ := (hmem l).mp hl
  exact textual_of_explore he (hp.isText_root (mem_sortedRoots hroot)) hp.named.texts hnamed l hl

theorem LockPath.canonical_eq_of_mark {l l' : LockPath} (hroot : l'.root = l.root)
    (hmark : l'.mark = l.mark) : l'.canonical = l.canonical := by
  obtain ⟨hevents, hdegraded⟩ := Prod.mk.inj hmark
  rw [LockPath.canonical, LockPath.canonical, hroot, hevents, hdegraded]

theorem Collected.exists_alike {g g' : CallGraph} {options : Options} {fuel fuel' : Nat}
    {roots : List Name} {paths paths' : List LockPath} (h : Collected g options fuel roots paths)
    (h' : Collected g' options fuel' roots paths')
    (hmarks : ∀ root ∈ roots, ∀ e, explore g options fuel root = .ok e →
      ∃ e', explore g' options fuel' root = .ok e' ∧ ∀ l ∈ e.paths, ∃ l' ∈ e'.paths, l'.mark = l.mark) :
    ∀ l ∈ paths, ∃ l' ∈ paths', l'.canonical = l.canonical := by
  intro l hl
  obtain ⟨root, hroot, e, he, hl⟩ := (h l).mp hl
  obtain ⟨e', he', hmarks⟩ := hmarks root (mem_sortedRoots hroot) e he
  obtain ⟨l', hl', hmark⟩ := hmarks l hl
  have hroots : l'.root = l.root :=
    (explore_recordedAmong he' hl').root.trans (explore_recordedAmong he hl).root.symm
  exact ⟨l', (h' l').mpr ⟨root, hroot, e', he', hl'⟩, LockPath.canonical_eq_of_mark hroots hmark⟩

/-- What is recorded of the traversals of two programs from a root is what they come to, and their events
tell whether they are degraded. -/
structure PlainlyRecorded (p q : Program) (options : Options) (fuel fuel' : Nat) (root : Name) : Prop where
  first : Undistorted (traversals p.graph options root fuel (.start root))
  second : Undistorted (traversals q.graph options root fuel' (.start root))
  flags : Unambiguous (traversals p.graph options root fuel (.start root))

/-- What is collected of two programs that differ in the order of branches is the same up to spelling. -/
theorem Program.Rebranched.samePaths {p q : Program} (h : p.Rebranched q) (hp : p.Proper)
    {options : Options} {fuel fuel' : Nat} (hexplored : p.Explored options fuel)
    (hexplored' : q.Explored options fuel')
    (hrecorded : ∀ root ∈ p.roots, PlainlyRecorded p q options fuel fuel' root)
    {paths paths' : List LockPath} (hpaths : Collected p.graph options fuel p.roots paths)
    (hpaths' : Collected q.graph options fuel' p.roots paths') : SamePaths paths paths' := by
  have hmarks : ∀ root ∈ p.roots, ∃ e e', explore p.graph options fuel root = .ok e ∧
      explore q.graph options fuel' root = .ok e' ∧
      ∀ mark, (∃ l ∈ e'.paths, l.mark = mark) ↔ ∃ l ∈ e.paths, l.mark = mark := by
    intro root hroot
    obtain ⟨e, he, hcut⟩ := hexplored root hroot
    obtain ⟨e', he', hcut'⟩ := hexplored' root (h.roots_eq ▸ hroot)
    obtain ⟨hfirst, hsecond, hflags⟩ := hrecorded root hroot
    exact ⟨e, e', he, he', marks_iff_of_rebranched h hp he hcut he' hcut' hfirst hsecond hflags⟩
  constructor
  · refine hpaths.exists_alike hpaths' fun root hroot e he => ?_
    obtain ⟨e₁, e', he₁, he', hiff⟩ := hmarks root hroot
    cases he.symm.trans he₁
    exact ⟨e', he', fun l hl => (hiff _).mpr ⟨l, hl, rfl⟩⟩
  · refine hpaths'.exists_alike hpaths fun root hroot e' he' => ?_
    obtain ⟨e, e₁, he, he₁, hiff⟩ := hmarks root hroot
    cases he'.symm.trans he₁
    exact ⟨e, he, fun l hl => (hiff _).mp ⟨l, hl, rfl⟩⟩

/-- Proper programs that differ in the order of branches have the same complete walks. Explorations that
are not cut short bring the same traversals to their ends, up to the spelling of names, and both programs
have an analysis. If what is recorded of the traversals is what they come to, and their events tell whether
they are degraded, then the collected paths are the same, and so are the double locks that are reported and
their grades. -/
theorem branch_order_keeps_walks {p q : Program} (h : p.Rebranched q) (hp : p.Proper)
    (hnamed : ∀ i ∈ p.instances, i.locksNamed = true) {options : Options}
    (hbudget : options.timeBudget = none) {fuel fuel' : Nat} (hexplored : p.Explored options fuel)
    (hexplored' : q.Explored options fuel') (clock clock' : Clock) :
    (∀ root t, Completes q.graph options root t ↔ Completes p.graph options root t) ∧
    (∀ root ∈ p.roots, ∀ mark,
      (∃ t ∈ traversals q.graph options root fuel' (.start root), t.final.mark = mark) ↔
        ∃ t ∈ traversals p.graph options root fuel (.start root), t.final.mark = mark) ∧
    ∃ c c' skip rs rs', collect p.graph options fuel clock p.roots = .ok c ∧
      collect q.graph options fuel' clock' q.roots = .ok c' ∧
      outcome (analyze options fuel clock p) = .ok (skip, rs) ∧
      outcome (analyze options fuel' clock' q) = .ok (skip, rs') ∧
      ((∀ root ∈ p.roots, PlainlyRecorded p q options fuel fuel' root) →
        SamePaths c.paths c'.paths ∧ SameDoubleLocks c.paths c'.paths rs rs') := by
  have hq := h.proper hp
  obtain ⟨c, hc, htextual, hpaths⟩ := hp.exists_collection hnamed hbudget hexplored clock
  obtain ⟨c', hc', htextual', hpaths'⟩ :=
    hq.exists_collection (h.locksNamed hnamed) hbudget hexplored' clock'
  have houtcome := hp.outcome_of_textual hc htextual
  have houtcome' := hq.outcome_of_textual hc' htextual'
  rw [h.skipReason?_eq] at houtcome'
  rw [h.roots_eq] at hpaths'
  have hsame : (∀ root ∈ p.roots, PlainlyRecorded p q options fuel fuel' root) →
      SamePaths c.paths c'.paths := fun hrecorded =>
    h.samePaths hp hexplored hexplored' hrecorded hpaths hpaths'
  refine ⟨fun root t => completes_iff_of_rebranched (h.graph hp), ?_, ?_⟩
  · intro root hroot
    obtain ⟨e, he, hcut⟩ := hexplored root hroot
    obtain ⟨e', he', hcut'⟩ := hexplored' root (h.roots_eq ▸ hroot)
    exact finals_iff_of_rebranched h hp he hcut he' hcut'
  · cases hskip : skipReason? options p with
    | some reason =>
      rw [hskip] at houtcome houtcome'
      refine ⟨c, c', _, _, _, hc, hc', houtcome, houtcome', fun hrecorded => ⟨hsame hrecorded, ?_⟩⟩
      exact ⟨[], .nil, .nil, rfl⟩
    | none =>
      rw [hskip] at houtcome houtcome'
      refine ⟨c, c', _, _, _, hc, hc', houtcome, houtcome', fun hrecorded => ⟨hsame hrecorded, ?_⟩⟩
      exact sameDoubleLocks_of_samePaths htextual htextual' (hsame hrecorded) options

/-! ### Programs with branches -/

theorem Block.Rebranched.refl (b : Block) : b.Rebranched b := by
  refine ⟨rfl, ?_⟩
  cases b.terminator with
  | goto targets => exact .goto (.refl targets)
  | call c => exact .call c
  | ret value location => exact .ret value location

def ofBlocks (blocks : List Block) : Program :=
  { relocking with instances := relocking.instances.map fun i => { i with body := some { blocks } } }

/-- Two programs of which one block jumps to the same targets in another order. -/
theorem rebranched_ofBlocks (before after : List Block) (statements : List Statement)
    {targets targets' : List Target} (h : targets'.Perm targets) :
    (ofBlocks (before ++ { statements, terminator := .goto targets } :: after)).Rebranched
      (ofBlocks (before ++ { statements, terminator := .goto targets' } :: after)) := by
  have hrefl : ∀ bs : List Block, List.Forall₂ Block.Rebranched bs bs := fun bs =>
    List.forall₂_same.mpr fun b _ => .refl b
  have hafter : List.Forall₂ Block.Rebranched ({ statements, terminator := .goto targets } :: after)
      ({ statements, terminator := .goto targets' } :: after) :=
    .cons ⟨rfl, .goto h⟩ (hrefl after)
  exact ⟨rfl, .cons ⟨rfl, .some (List.rel_append (hrefl before) hafter)⟩ .nil⟩

def locking (guard : String) (line : Int) : Statement :=
  .acquire (.str guard) { site := .static, name := .str "A" } .mutex { file := "main.rs", line } (.bool true)

def returning (statements : List Statement) : Block :=
  { statements, terminator := .ret .null .unknown }

def branching (targets : List Target) : Program :=
  ofBlocks ([] ++ { statements := [], terminator := .goto targets } ::
    [returning [locking "a" 1, locking "b" 2], returning []])

/-- The two orders of a branch lead to the same paths, and to the same probable double lock. -/
theorem branch_order_keeps_walks_branching :
    ∃ c c' skip rs rs',
      collect (branching [.int 1, .int 2]).graph {} 9 {} [.str "main"] = .ok c ∧
      collect (branching [.int 2, .int 1]).graph {} 9 {} [.str "main"] = .ok c' ∧
      outcome (analyze {} 9 {} (branching [.int 1, .int 2])) = .ok (skip, rs) ∧
      outcome (analyze {} 9 {} (branching [.int 2, .int 1])) = .ok (skip, rs') ∧
      SamePaths c.paths c'.paths ∧ SameDoubleLocks c.paths c'.paths rs rs' ∧
      rs.map Report.possibility = [.probably] := by
  have hrebranched : (branching [.int 1, .int 2]).Rebranched (branching [.int 2, .int 1]) :=
    rebranched_ofBlocks _ _ _ (.swap _ _ _)
  have hproper : (branching [.int 1, .int 2]).Proper := by decide +kernel
  have hnamed : ∀ i ∈ (branching [.int 1, .int 2]).instances, i.locksNamed = true := by decide +kernel
  have hexplored : ∀ targets, (explore (branching targets).graph {} 9 (.str "main")).map
      Exploration.cut = .ok false → (branching targets).Explored {} 9 := by
    intro targets hcut root hroot
    obtain rfl := List.mem_singleton.mp hroot
    exact except_map_eq_ok hcut
  have hrecorded : ∀ root ∈ (branching [.int 1, .int 2]).roots,
      PlainlyRecorded (branching [.int 1, .int 2]) (branching [.int 2, .int 1]) {} 9 9 root := by
    intro root hroot
    obtain rfl := List.mem_singleton.mp hroot
    exact ⟨by decide +kernel, by decide +kernel, by decide +kernel⟩
  obtain ⟨_, _, c, c', skip, rs, rs', hc, hc', ho, ho', hsame⟩ := branch_order_keeps_walks hrebranched
    hproper hnamed rfl (hexplored _ (by decide +kernel)) (hexplored _ (by decide +kernel)) {} {}
  have hgrades : (outcome (analyze {} 9 {} (branching [.int 1, .int 2]))).toOption.map
      (fun o => o.2.map Report.possibility) = some [.probably] := by
    decide +kernel
  obtain ⟨hpaths, hlocks⟩ := hsame hrecorded
  refine ⟨c, c', skip, rs, rs', hc, hc', ho, ho', hpaths, hlocks, ?_⟩
  rw [ho] at hgrades
  exact Option.some.inj hgrades

/-- A lock is acquired twice, with a branch in between on which something is called that is not known. -/
def uncertain (targets : List Target) : Program :=
  ofBlocks ([] ++ { statements := [locking "a" 1], terminator := .goto targets } :: [
    { statements := []
      terminator := .call {
        site := .str "s", callee := .null, signature := .str "fn()", method := .null,
        target := some (.int 3), destination := .null, location := .unknown } },
    { statements := [], terminator := .goto [.int 3] },
    returning [locking "b" 2]])

def circling (targets : List Target) : Program :=
  ofBlocks ([{ statements := [], terminator := .goto [.int 1, .int 2] }] ++
    { statements := [], terminator := .goto targets } :: [
    { statements := [locking "a" 1], terminator := .goto [.int 1, .int 4] },
    returning [locking "b" 2],
    returning []])

/-- The order of branches decides which of two walks with the same events is recorded, and with it the
grade of a double lock. It also decides whether a walk is recorded to its end. -/
theorem branch_order_changes_findings :
    (uncertain [.int 1, .int 2]).Rebranched (uncertain [.int 2, .int 1]) ∧
    (∀ targets ∈ [[.int 1, .int 2], [.int 2, .int 1]],
      (explore (uncertain targets).graph {} 20 (.str "main")).map Exploration.cut = .ok false) ∧
    (outcome (analyze {} 20 {} (uncertain [.int 1, .int 2]))).toOption.map
      (fun o => o.2.map Report.possibility) = some [.possibly] ∧
    (outcome (analyze {} 20 {} (uncertain [.int 2, .int 1]))).toOption.map
      (fun o => o.2.map Report.possibility) = some [.probably] ∧
    (circling [.int 2, .int 3, .int 4]).Rebranched (circling [.int 2, .int 4, .int 3]) ∧
    (explore (circling [.int 2, .int 3, .int 4]).graph { maxRevisits := 1 } 40 (.str "main")).map
      (fun e => (e.cut, e.paths.any fun l => 2 ≤ (l.events.countP Event.isAcquire))) = .ok (false, false) ∧
    (explore (circling [.int 2, .int 4, .int 3]).graph { maxRevisits := 1 } 40 (.str "main")).map
      (fun e => (e.cut, e.paths.any fun l => 2 ≤ (l.events.countP Event.isAcquire))) = .ok (false, true) := by
  refine ⟨rebranched_ofBlocks _ _ _ (.swap _ _ _), by decide +kernel, by decide +kernel,
    by decide +kernel, rebranched_ofBlocks _ _ _ (.cons _ (.swap _ _ _)), by decide +kernel,
    by decide +kernel⟩

end LockAudit
