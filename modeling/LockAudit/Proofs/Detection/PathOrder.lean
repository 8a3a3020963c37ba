import LockAudit.Proofs.Detection.Cycles
import LockAudit.Proofs.Detection.DoubleLocks
import LockAudit.Proofs.Detection.Inversions
import LockAudit.Proofs.Order.Sorted

/-! # The order in which paths are given

What detection finds is told by the set of paths. How a finding is shown is not: paths that compare as
equal stay in the order in which they are given, and the first one is shown. For a cycle the grade, too, is
that of the paths that are shown.
-/

namespace LockAudit

/-! ### Paths that tie -/

theorem compare_eq_of_map {α β : Type} [Ord α] {f : α → β} (hf : ∀ a b, f a = f b → compare a b = .eq)
    {xs ys : List α} (h : xs.map f = ys.map f) : compare xs ys = .eq := by
  change List.compareLex compare xs ys = .eq
  induction xs generalizing ys with
  | nil =>
    obtain rfl := List.map_eq_nil_iff.mp h.symm
    rfl
  | cons x xs ih =>
    obtain ⟨y, ys, rfl, hy, hys⟩ := List.map_eq_cons_iff.mp h.symm
    rw [List.compareLex_cons_cons, hf x y hy.symm, ih hys.symm]
    rfl

theorem Name.compare_eq_of_canonical {a b : Name} (h : a.canonical = b.canonical) :
    compare a b = .eq := by
  rw [Name.compare_congr h rfl]
  exact Std.ReflOrd.compare_self

theorem Event.compare_eq_of_canonical {e f : Event} (h : e.canonical = f.canonical) :
    compare e f = .eq := by
  simp only [Event.canonical, Event.mk.injEq] at h
  obtain ⟨hop, _, _, hlocation, _, _, hchain, _, _⟩ := h
  have hchains : compare e.chain f.chain = .eq :=
    compare_eq_of_map (fun _ _ => Name.compare_eq_of_canonical) hchain
  change compareLex _ _ e f = .eq
  simp only [compareLex, compareOn, hop, hlocation, Std.ReflOrd.compare_self, hchains, Ordering.then]

/-- Paths that are equal up to spelling tie. -/
theorem LockPath.compare_eq_of_canonical {p q : LockPath} (h : p.canonical = q.canonical) :
    compare p q = .eq := by
  simp only [LockPath.canonical, LockPath.mk.injEq] at h
  obtain ⟨hroot, hevents, hdegraded⟩ := h
  have hroots : compare p.root q.root = .eq := Name.compare_eq_of_canonical hroot
  have hlists : compare p.events q.events = .eq :=
    compare_eq_of_map (fun _ _ => Event.compare_eq_of_canonical) hevents
  change compareLex _ _ p q = .eq
  simp only [compareLex, compareOn, hroots, hlists, hdegraded, Std.ReflOrd.compare_self, Ordering.then]

namespace Detection

variable {options : Options} {paths paths' : List LockPath}

theorem Textual.prepare_eq (h : Textual paths) :
    Detection.prepare paths = sortOn id (distinctOn LockPath.canonical paths) := by
  refine orderOn_of_plain ?_
  intro p hp
  have hplain := (h p ((distinctOn_sublist LockPath.canonical paths).subset hp)).2
  exact (Bool.and_eq_true_iff.mp hplain).1

theorem Textual.fault?_eq (h : Textual paths) (options : Options) : fault? options paths = none := by
  have hkeyed : paths.all LockPath.isKeyed = true := List.all_eq_true.mpr fun p hp => (h p hp).1
  have hplain : paths.all Detection.isPlain = true := List.all_eq_true.mpr fun p hp => (h p hp).2
  simp [fault?, hkeyed, hplain]

/-- Detection goes by the prepared paths alone. -/
theorem Textual.detect_eq (h : Textual paths) (h' : Textual paths')
    (hprepare : Detection.prepare paths' = Detection.prepare paths) :
    Detection.detect options paths' = Detection.detect options paths := by
  have hevidence : evidence options paths' = evidence options paths := by
    simp only [evidence, hprepare]
  simp only [Detection.detect, h.fault?_eq, h'.fault?_eq, hevidence]

/-- Without ties between different paths, the distinct paths are the given ones. -/
theorem mem_distinctOn_of_untied (hties : ∀ p ∈ paths, ∀ q ∈ paths, compare p q = .eq → p = q)
    {p : LockPath} : p ∈ distinctOn LockPath.canonical paths ↔ p ∈ paths := by
  constructor
  · exact fun hp => (distinctOn_sublist LockPath.canonical paths).subset hp
  · intro hp
    obtain ⟨q, hq, hqp⟩ := exists_prepared hp
    have htie : compare q p = .eq := LockPath.compare_eq_of_canonical hqp
    rw [← hties q (mem_prepare hq) p hp htie]
    exact mem_prepare_iff.mp hq

theorem nodup_distinctOn (paths : List LockPath) : (distinctOn LockPath.canonical paths).Nodup := by
  refine List.Nodup.of_map LockPath.canonical ?_
  rw [map_distinctOn]
  exact nodup_distinct _

theorem distinctOn_perm (hsame : ∀ p, p ∈ paths' ↔ p ∈ paths)
    (hties : ∀ p ∈ paths, ∀ q ∈ paths, compare p q = .eq → p = q) :
    (distinctOn LockPath.canonical paths').Perm (distinctOn LockPath.canonical paths) := by
  have hties' : ∀ p ∈ paths', ∀ q ∈ paths', compare p q = .eq → p = q := by
    intro p hp q hq
    exact hties p ((hsame p).mp hp) q ((hsame q).mp hq)
  refine (List.perm_ext_iff_of_nodup (nodup_distinctOn _) (nodup_distinctOn _)).mpr fun p => ?_
  rw [mem_distinctOn_of_untied hties', mem_distinctOn_of_untied hties, hsame]

/-! ### Findings by the set of paths -/

theorem relocks_iff (hsame : ∀ p, p ∈ paths' ↔ p ∈ paths) {k : DoubleLockKey} {p : LockPath}
    {n : Nesting} : Relocks paths' k p n ↔ Relocks paths k p n := by
  constructor
  · intro h
    exact ⟨(hsame p).mp h.path, h.on, h.first, h.second, h.firstClass, h.secondClass⟩
  · intro h
    exact ⟨(hsame p).mpr h.path, h.on, h.first, h.second, h.firstClass, h.secondClass⟩

theorem ReportsDoubleLock.of_same (hsame : ∀ p, p ∈ paths' ↔ p ∈ paths) {k : DoubleLockKey} {r : Report}
    (h : ReportsDoubleLock paths' k r) : ReportsDoubleLock paths k r := by
  obtain ⟨hshown, hgraded⟩ := h
  simp only [relocks_iff hsame] at hshown hgraded
  exact ⟨hshown, hgraded⟩

theorem conflicts_iff (hsame : ∀ p, p ∈ paths' ↔ p ∈ paths) {k : InversionKey} {p q : LockPath}
    {m n : Nesting} : Conflicts paths' k p q m n ↔ Conflicts paths k p q m n := by
  constructor
  · intro h
    exact { h with forwardPath := (hsame p).mp h.forwardPath, backwardPath := (hsame q).mp h.backwardPath }
  · intro h
    exact
      { h with forwardPath := (hsame p).mpr h.forwardPath, backwardPath := (hsame q).mpr h.backwardPath }

theorem ReportsConflict.of_same (hsame : ∀ p, p ∈ paths' ↔ p ∈ paths) {k : InversionKey} {r : Report}
    (h : ReportsConflict paths' k r) : ReportsConflict paths k r := by
  obtain ⟨hshown, hgraded⟩ := h
  simp only [conflicts_iff hsame] at hshown hgraded
  exact ⟨hshown, hgraded⟩

theorem Reportable.of_same (hsame : ∀ p, p ∈ paths' ↔ p ∈ paths) {c : List AliasClass}
    (h : Reportable options paths' c) : Reportable options paths c := by
  obtain ⟨hnodup, hordered, hthree, hmax, hseveral⟩ := h
  simp only [OnOnePath, hsame] at hordered hseveral
  exact ⟨hnodup, hordered, hthree, hmax, hseveral⟩

theorem ReportsCycle.of_same (hsame : ∀ p, p ∈ paths' ↔ p ∈ paths) {c : List AliasClass} {r : Report}
    (h : ReportsCycle paths' c r) : ReportsCycle paths c r := by
  obtain ⟨ws, hwitnesses, hseveral, hsubject⟩ := h
  refine ⟨ws, hwitnesses.imp ?_, hseveral, hsubject⟩
  intro w e hw
  exact ⟨(hsame w.1).mp hw.path, hw.nesting, hw.edge⟩

/-- Two reports of one finding. Double locks and conflicts of two classes have one grade, while a cycle is
graded by the witnesses that are shown. -/
inductive SameFinding (paths : List LockPath) (r r' : Report) : Prop
  | doubleLock (k : DoubleLockKey) (h : ReportsDoubleLock paths k r) (h' : ReportsDoubleLock paths k r')
      (hgrade : r'.possibility = r.possibility)
  | conflict (k : InversionKey) (h : ReportsConflict paths k r) (h' : ReportsConflict paths k r')
      (hgrade : r'.possibility = r.possibility)
  | cycle (c : List AliasClass) (h : ReportsCycle paths c r) (h' : ReportsCycle paths c r')

theorem possibility_eq {P : Prop} {a b : Possibility} (ha : a = .probably ↔ P) (hb : b = .probably ↔ P) :
    a = b := by
  have hab : a = .probably ↔ b = .probably := ha.trans hb.symm
  cases a <;> cases b <;> simp_all

/-- Reports of the same subjects, in the same order, come in pairs. -/
theorem forall₂_of_subjects {κ : Type} {Says : κ → Report → Prop} {R : Report → Report → Prop}
    (hR : ∀ k r r', Says k r → Says k r' → R r r') {keys : List κ} {rs rs' : List Report}
    (h : List.Forall₂ Says keys rs) (h' : List.Forall₂ Says keys rs') : List.Forall₂ R rs rs' := by
  induction h generalizing rs' with
  | nil =>
    cases h'
    exact .nil
  | cons hr _ ih =>
    cases h' with
    | cons hr' hrs' => exact .cons (hR _ _ _ hr hr') (ih hrs')

/-- The double locks are reported by their keys, and the paths alone say which keys there are. -/
theorem Answered.doubleLockReports {found : Detected} (h : Answered options paths found) :
    ∃ keys : List DoubleLockKey, (∀ k, k ∈ keys ↔ ∃ p n, Relocks paths k p n) ∧
      (Textual paths → keys.Pairwise fun k l => compare k l = .lt) ∧
      List.Forall₂ (ReportsDoubleLock paths) keys
        (Detection.doubleLockReports (Detection.prepare paths)) := by
  have happart := doubleLocks_tellApart fun p hp => h.keyed p (mem_prepare hp)
  obtain ⟨groups, hgroups⟩ := Option.isSome_iff_exists.mp h.doubleLocks
  obtain ⟨keys, hkeys, _, hascend, hreports⟩ :=
    (findings?_partitions happart hgroups).reported fun k g => doubleLockReport?_says (k := k)
  refine ⟨keys, fun k => ?_, fun htextual => hascend ?_, ?_⟩
  · rw [hkeys]
    constructor
    · rintro ⟨d, hd, rfl⟩
      obtain ⟨p, n, hn, _⟩ := relocks_of_mem hd
      exact ⟨p, n, hn⟩
    · rintro ⟨p, n, hn⟩
      obtain ⟨d, hd, hkey, _⟩ := hn.exists_mem
      exact ⟨d, hd, hkey⟩
  · rw [findings?_of_plain (doubleLocks_plain fun p hp => (htextual.prepare p hp).2)] at hgroups
    cases hgroups
    exact groupOn_ascending _ _
  · rw [Detection.doubleLockReports, findings, hgroups]
    exact hreports

theorem Textual.doubleLockReports (h : Textual paths) :
    ∃ keys : List DoubleLockKey, (∀ k, k ∈ keys ↔ ∃ p n, Relocks paths k p n) ∧
      (keys.Pairwise fun k l => compare k l = .lt) ∧
      List.Forall₂ (ReportsDoubleLock paths) keys
        (Detection.doubleLockReports (Detection.prepare paths)) := by
  obtain ⟨_, hfound⟩ := h.detect {}
  obtain ⟨keys, hkeys, hascend, hreports⟩ := (answered hfound).doubleLockReports
  exact ⟨keys, hkeys, hascend h, hreports⟩

/-- The inversions are reported by their keys, and the paths alone say which keys there are. -/
theorem Answered.inversionReports {found : Detected} (h : Answered options paths found) :
    ∃ keys : List InversionKey,
      (∀ k, k ∈ keys ↔ Ranked.relate k.lower k.upper ≠ .after ∧ ∃ p q m n, Conflicts paths k p q m n) ∧
      (Textual paths → keys.Pairwise fun k l => compare k l = .lt) ∧
      List.Forall₂ (ReportsConflict paths) keys
        (Detection.inversionReports (witnesses (Detection.prepare paths))) := by
  have happart := inversions_tellApart fun p hp => h.keyed p (mem_prepare hp)
  obtain ⟨groups, hgroups⟩ := Option.isSome_iff_exists.mp h.inversions
  obtain ⟨keys, hkeys, _, hascend, hreports⟩ :=
    (findings?_partitions happart hgroups).reported fun k g => inversionReport?_says (k := k)
  refine ⟨keys, fun k => ?_, fun htextual => hascend ?_, ?_⟩
  · rw [hkeys]
    constructor
    · rintro ⟨i, hi, rfl⟩
      obtain ⟨hrelate, p, q, hc, _⟩ := conflicts_of_mem hi
      exact ⟨hrelate, p, q, _, _, hc⟩
    · rintro ⟨hrelate, p, q, m, n, hc⟩
      obtain ⟨i, hi, hkey, _⟩ := hc.exists_mem hrelate
      exact ⟨i, hi, hkey⟩
  · rw [findings?_of_plain (inversions_plain fun p hp => (htextual.prepare p hp).2)] at hgroups
    cases hgroups
    exact groupOn_ascending _ _
  · rw [Detection.inversionReports, findings, hgroups]
    exact hreports

theorem Textual.inversionReports (h : Textual paths) :
    ∃ keys : List InversionKey,
      (∀ k, k ∈ keys ↔ Ranked.relate k.lower k.upper ≠ .after ∧ ∃ p q m n, Conflicts paths k p q m n) ∧
      (keys.Pairwise fun k l => compare k l = .lt) ∧
      List.Forall₂ (ReportsConflict paths) keys
        (Detection.inversionReports (witnesses (Detection.prepare paths))) := by
  obtain ⟨_, hfound⟩ := h.detect {}
  obtain ⟨keys, hkeys, hascend, hreports⟩ := (answered hfound).inversionReports
  exact ⟨keys, hkeys, hascend h, hreports⟩

section Same

variable (h : Textual paths) (h' : Textual paths') (hsame : ∀ p, p ∈ paths' ↔ p ∈ paths)
include h h' hsame

theorem doubleLockReports_same : List.Forall₂ (SameFinding paths)
    (doubleLockReports (prepare paths)) (doubleLockReports (prepare paths')) := by
  obtain ⟨keys, hkeys, hascend, hreports⟩ := h.doubleLockReports
  obtain ⟨keys', hkeys', hascend', hreports'⟩ := h'.doubleLockReports
  obtain rfl : keys' = keys := by
    refine eq_of_rising id hascend' hascend fun k => ?_
    simp only [hkeys, hkeys', relocks_iff hsame]
  refine forall₂_of_subjects ?_ hreports (hreports'.imp fun _ _ => ReportsDoubleLock.of_same hsame)
  intro k r r' hr hr'
  exact .doubleLock k hr hr' (possibility_eq hr'.graded hr.graded)

theorem inversionReports_same : List.Forall₂ (SameFinding paths)
    (inversionReports (witnesses (prepare paths))) (inversionReports (witnesses (prepare paths'))) := by
  obtain ⟨keys, hkeys, hascend, hreports⟩ := h.inversionReports
  obtain ⟨keys', hkeys', hascend', hreports'⟩ := h'.inversionReports
  obtain rfl : keys' = keys := by
    refine eq_of_rising id hascend' hascend fun k => ?_
    simp only [hkeys, hkeys', conflicts_iff hsame]
  refine forall₂_of_subjects ?_ hreports (hreports'.imp fun _ _ => ReportsConflict.of_same hsame)
  intro k r r' hr hr'
  exact .conflict k hr hr' (possibility_eq hr'.graded hr.graded)

/-- The cycles are the same in any order of the paths, even where their witnesses differ. -/
theorem cycleReports_same (options : Options) : List.Forall₂ (SameFinding paths)
    ((evidence options paths).cycles.map fun c => cycleReport c.2)
    ((evidence options paths').cycles.map fun c => cycleReport c.2) := by
  have hcycles : reportedCycles options paths' = reportedCycles options paths := by
    refine eq_of_rising id (reportedCycles_ascending fun p hp => (h' p hp).1)
      (reportedCycles_ascending fun p hp => (h p hp).1) fun c => ?_
    rw [mem_reportedCycles fun p hp => (h' p hp).1, mem_reportedCycles fun p hp => (h p hp).1]
    constructor
    · rintro ⟨hc, hsmallest⟩
      exact ⟨hc.of_same hsame, hsmallest⟩
    · rintro ⟨hc, hsmallest⟩
      exact ⟨hc.of_same fun p => (hsame p).symm, hsmallest⟩
  have hshown' := reportedCycles_shown options paths'
  rw [hcycles] at hshown'
  refine forall₂_of_subjects ?_ (reportedCycles_shown options paths)
    (hshown'.imp fun _ _ => ReportsCycle.of_same hsame)
  intro c r r' hr hr'
  exact .cycle c hr hr'

theorem reports_same (options : Options) :
    List.Forall₂ (SameFinding paths) (reports options paths) (reports options paths') :=
  List.rel_append (List.rel_append (doubleLockReports_same h h' hsame) (inversionReports_same h h' hsame))
    (cycleReports_same h h' hsame options)

end Same

/-- On paths with the same members detection makes the same findings in the same order. If moreover paths
that tie are first met in the same order, and so if no two different paths tie, its answers are equal. -/
theorem path_order_counts_among_ties (options : Options) {paths paths' : List LockPath}
    (htextual : Textual paths) (hsame : ∀ p, p ∈ paths' ↔ p ∈ paths) :
    (∃ found found', detect options paths = .ok found ∧ detect options paths' = .ok found' ∧
      List.Forall₂ (SameFinding paths) found.reports found'.reports) ∧
    ((∀ p, (distinctOn LockPath.canonical paths').filter (ties id p) =
        (distinctOn LockPath.canonical paths).filter (ties id p)) →
      detect options paths' = detect options paths) ∧
    ((∀ p ∈ paths, ∀ q ∈ paths, compare p q = .eq → p = q) →
      detect options paths' = detect options paths) := by
  have htextual' : Textual paths' := fun p hp => htextual p ((hsame p).mp hp)
  have hequal : sortOn id (distinctOn LockPath.canonical paths') =
      sortOn id (distinctOn LockPath.canonical paths) →
        detect options paths' = detect options paths := by
    intro hsorted
    refine htextual.detect_eq htextual' ?_
    rw [htextual'.prepare_eq, htextual.prepare_eq, hsorted]
  refine ⟨?_, fun hties => hequal (sortOn_eq_of_ties hties), fun hties => hequal ?_⟩
  · obtain ⟨found, hfound⟩ := htextual.detect options
    obtain ⟨found', hfound'⟩ := htextual'.detect options
    refine ⟨found, found', hfound, hfound', ?_⟩
    rw [(answered hfound).reports, (answered hfound').reports]
    exact reports_same htextual htextual' hsame options
  · have hperm := distinctOn_perm hsame hties
    refine sortOn_eq_of_perm ?_ hperm
    intro p hp q hq
    have hmem : ∀ r ∈ distinctOn LockPath.canonical paths', r ∈ paths := by
      intro r hr
      exact (hsame r).mp ((distinctOn_sublist LockPath.canonical paths').subset hr)
    exact hties p (hmem p hp) q (hmem q hq)

theorem path_order_counts_among_ties_roundabout :
    detect {} (roundabout.reverse ++ roundabout) = detect {} roundabout ∧
      ∃ found, detect {} roundabout = .ok found := by
  have htextual : Textual roundabout := by
    unfold Textual
    decide +kernel
  have hsame : ∀ p, p ∈ roundabout.reverse ++ roundabout ↔ p ∈ roundabout := by
    intro p
    rw [List.mem_append, List.mem_reverse, or_self]
  obtain ⟨⟨found, _, hfound, _⟩, _, huntied⟩ := path_order_counts_among_ties {} htextual hsame
  exact ⟨huntied (by decide +kernel), found, hfound⟩

/-! ### A cycle whose grade goes by the order of two paths that tie -/

def regrasp (p : LockPath) (i : Nat) (kind : GuardKind) : LockPath :=
  { p with events := p.events.modify i fun e => { e with kind } }

/-- Three locks are taken in turn. The second one is held shared, and it is asked for with each of the
given kinds of guard, on paths that tie. -/
def askingFor (kinds : List GuardKind) : List LockPath :=
  kinds.map (regrasp (acquiring "A" "B" 1) 1) ++
    [regrasp (acquiring "B" "C" 3) 0 .read, acquiring "C" "A" 5]

def ring : List AliasClass :=
  [.static (.str "A"), .static (.str "B"), .static (.str "C")]

theorem orderedClasses_ring : orderedClasses (cycleEdges ring) = ring := by
  have hclasses : distinct ((cycleEdges ring).flatMap fun e => [e.1, e.2]) = ring := by decide +kernel
  rw [orderedClasses, hclasses]
  refine sortOn_eq_self ?_
  unfold NotAfter
  decide +kernel

theorem cycles_ring : cycles (cycleEdges ring) 4 = [ring] := by
  have hedges : edgesOnCycles (cycleEdges ring) = cycleEdges ring := by
    simp only [edgesOnCycles, orderedClasses_ring]
    decide +kernel
  simp only [cycles, simpleCycles, hedges, orderedClasses_ring]
  decide +kernel

/-- Where the paths stand in order and the classes of the ring are all that they order, the ring is the one
cycle that is looked at. -/
theorem reports_ring {paths : List LockPath} (hsorted : prepare paths = paths)
    (hedges : orderEdges (witnesses paths) = cycleEdges ring) :
    reports {} paths = Evidence.reports
      { paths
        witnesses := witnesses paths
        cycles := [ring].filterMap fun cycle =>
          (spreadWitnesses ((cycleEdges cycle).map (witnessIndex (witnesses paths)).withKey)).map
            fun chosen => (cycle, chosen) } := by
  simp only [reports, evidence, hsorted, spreadCycles, hedges, cycles_ring]
  rfl

theorem reports_askingFor {kinds : List GuardKind}
    (hsorted : prepare (askingFor kinds) = askingFor kinds)
    (hedges : orderEdges (witnesses (askingFor kinds)) = cycleEdges ring) :
    reports {} (askingFor kinds) = Evidence.reports
      { paths := askingFor kinds
        witnesses := witnesses (askingFor kinds)
        cycles := [ring].filterMap fun cycle =>
          (spreadWitnesses ((cycleEdges cycle).map (witnessIndex (witnesses (askingFor kinds))).withKey)).map
            fun chosen => (cycle, chosen) } :=
  reports_ring hsorted hedges

theorem Textual.prepare_eq_self (htextual : Textual paths)
    (hdistinct : distinctOn LockPath.canonical paths = paths)
    (hsorted : paths.Pairwise fun p q => (compare p q).isLE = true) : Detection.prepare paths = paths := by
  rw [htextual.prepare_eq, hdistinct]
  exact sortOn_eq_self hsorted

theorem prepare_askingFor {kinds : List GuardKind} (htextual : Textual (askingFor kinds))
    (hdistinct : distinctOn LockPath.canonical (askingFor kinds) = askingFor kinds)
    (hsorted : (askingFor kinds).Pairwise fun p q => (compare p q).isLE = true) :
    prepare (askingFor kinds) = askingFor kinds :=
  htextual.prepare_eq_self hdistinct hsorted

/-- The same paths in another order, and a cycle that has another grade. -/
theorem path_order_changes_grade :
    (∀ p, p ∈ askingFor [.write, .read] ↔ p ∈ askingFor [.read, .write]) ∧
    (detect {} (askingFor [.read, .write])).toOption.map (fun found => found.reports.map Report.possibility) =
      some [.possibly] ∧
    (detect {} (askingFor [.write, .read])).toOption.map (fun found => found.reports.map Report.possibility) =
      some [.probably] := by
  have hgrades : ∀ {kinds : List GuardKind}, Textual (askingFor kinds) →
      (detect {} (askingFor kinds)).toOption.map (fun found => found.reports.map Report.possibility) =
        some ((reports {} (askingFor kinds)).map Report.possibility) := by
    intro kinds htextual
    obtain ⟨found, hfound⟩ := htextual.detect {}
    rw [hfound, ← (answered hfound).reports]
    rfl
  have hread : Textual (askingFor [.read, .write]) := by
    unfold Textual
    decide +kernel
  have hwrite : Textual (askingFor [.write, .read]) := by
    unfold Textual
    decide +kernel
  refine ⟨?_, ?_, ?_⟩
  · intro p
    simp only [askingFor, List.map_cons, List.map_nil, List.cons_append, List.mem_cons]
    tauto
  · have hprepare := prepare_askingFor hread (by decide +kernel) (by decide +kernel)
    rw [hgrades hread, reports_askingFor hprepare (by decide +kernel)]
    decide +kernel
  · have hprepare := prepare_askingFor hwrite (by decide +kernel) (by decide +kernel)
    rw [hgrades hwrite, reports_askingFor hprepare (by decide +kernel)]
    decide +kernel

end Detection

end LockAudit
