import LockAudit.Proofs.Detection.Occurrence
import LockAudit.Proofs.Detection.Partition

/-! # When detection answers

On paths whose names are texts detection always answers. Whenever it answers, all names could be looked
up and the occurrences of double locks and of inversions were gathered into findings.
-/

namespace LockAudit.Detection

def Textual (paths : List LockPath) : Prop :=
  ∀ p ∈ paths, p.isKeyed = true ∧ isPlain p = true

variable {options : Options} {paths : List LockPath}

theorem Textual.detect (h : Textual paths) (options : Options) :
    ∃ found, detect options paths = .ok found := by
  have hkeyed : paths.all LockPath.isKeyed = true := List.all_eq_true.mpr fun p hp => (h p hp).1
  have hplain : paths.all isPlain = true := List.all_eq_true.mpr fun p hp => (h p hp).2
  simp [Detection.detect, fault?, hkeyed, hplain]

theorem Textual.prepare (h : Textual paths) : Textual (prepare paths) :=
  fun p hp => h p (mem_prepare hp)

theorem Nesting.On.mem {n : Nesting} {p : LockPath} (h : n.On p) :
    n.first.event ∈ p.events ∧ n.second.event ∈ p.events :=
  ⟨List.mem_of_getElem? h.first, List.mem_of_getElem? h.second⟩

theorem NestedOn.isPlain {degraded : Bool} {n : Nesting} (h : NestedOn paths degraded n)
    (hp : ∀ p ∈ paths, isPlain p = true) :
    Ranked.isPlain n.firstClass = true ∧ Ranked.isPlain n.secondClass = true := by
  obtain ⟨p, hmem, _, hn⟩ := h
  have hclasses : ∀ e ∈ p.events, Ranked.isPlain e.aliasClass = true := by
    have hplain := hp p hmem
    simp only [Detection.isPlain, Bool.and_eq_true, List.all_eq_true] at hplain
    exact hplain.2
  obtain ⟨hfirst, hsecond⟩ := (mem_nestings_iff.mp hn).mem
  exact ⟨hclasses _ hfirst, hclasses _ hsecond⟩

theorem doubleLocks_plain (hp : ∀ p ∈ paths, isPlain p = true) :
    ∀ d ∈ doubleLocks paths, Ranked.isPlain d.key = true := by
  intro d hd
  obtain ⟨n, hn⟩ := doubleLocks_nested hd
  obtain ⟨degraded, hnested⟩ := hn.nested
  have hplain := (hnested.isPlain hp).1
  rwa [Nesting.firstClass, ← hn.first] at hplain

theorem inversions_plain (hp : ∀ p ∈ paths, isPlain p = true) :
    ∀ i ∈ inversions (witnesses paths), Ranked.isPlain i.key = true := by
  intro i hi
  obtain ⟨hlower, hupper⟩ := (witnesses_nested (mem_inversions.mp hi).1).isPlain hp
  exact Bool.and_eq_true_iff.mpr ⟨hlower, hupper⟩

theorem findings?_of_plain {α κ : Type} [Ord κ] [Ranked κ] {key : α → κ} {xs : List α}
    (h : ∀ x ∈ xs, Ranked.isPlain (key x) = true) : findings? key xs = some (groupOn key xs) :=
  if_pos (List.all_eq_true.mpr h)

structure Answered (options : Options) (paths : List LockPath) (found : Detected) : Prop where
  reports : found.reports = reports options paths
  keyed : ∀ p ∈ paths, p.isKeyed = true
  doubleLocks : (findings? DoubleLock.key (doubleLocks (Detection.prepare paths))).isSome = true
  inversions : (findings? Inversion.key (inversions (witnesses (Detection.prepare paths)))).isSome = true

/-- An answer shows that nothing stood in its way: all names could be looked up, and findings had an order. -/
theorem answered {found : Detected} (h : detect options paths = .ok found) :
    Answered options paths found := by
  unfold detect at h
  split at h
  · cases h
  · rename_i hf
    cases h
    unfold Detection.fault? at hf
    split at hf
    · cases hf
    · rename_i hkeyed
      have hk : ∀ p ∈ paths, p.isKeyed = true := by simpa using hkeyed
      split at hf
      · rename_i hplain
        have hp : ∀ p ∈ paths, Detection.isPlain p = true := List.all_eq_true.mp hplain
        have hprep : ∀ p ∈ Detection.prepare paths, Detection.isPlain p = true :=
          fun p hm => hp p (mem_prepare hm)
        refine ⟨rfl, hk, ?_, ?_⟩
        · rw [findings?_of_plain (doubleLocks_plain hprep)]
          rfl
        · rw [findings?_of_plain (inversions_plain hprep)]
          rfl
      · dsimp only at hf
        split at hf
        · cases hf
        · rename_i hordered
          simp only [Evidence.isOrdered, evidence, Bool.not_eq_true', Bool.not_eq_false,
            Bool.and_eq_true, List.all_eq_true, bne_iff_ne] at hordered
          obtain ⟨⟨⟨⟨_, hd⟩, _⟩, hi⟩, _⟩ := hordered
          exact ⟨rfl, hk, hd, hi⟩

/-! ### Reports by their kind -/

theorem subject_of_doubleLockReports {ps : List LockPath} {r : Report} (h : r ∈ doubleLockReports ps) :
    ∃ d, r.subject = .doubleLock d := by
  obtain ⟨group, _, hr⟩ := List.mem_filterMap.mp h
  cases group with
  | nil => cases hr
  | cons d rest =>
    cases hr
    exact ⟨_, rfl⟩

theorem subject_of_inversionReports {ws : List Witness} {r : Report} (h : r ∈ inversionReports ws) :
    ∃ d e, r.subject = .conflictLock [d, e] := by
  obtain ⟨group, _, hr⟩ := List.mem_filterMap.mp h
  cases group with
  | nil => cases hr
  | cons i rest =>
    cases hr
    exact ⟨_, _, rfl⟩

theorem subject_of_cycle {c : List AliasClass × List Witness} (h : c ∈ (evidence options paths).cycles) :
    ∃ ds, (cycleReport c.2).subject = .conflictLock ds ∧ 3 ≤ ds.length := by
  refine ⟨_, rfl, ?_⟩
  rw [List.length_map]
  dsimp only [evidence] at h
  split at h
  · exact (spreadCycles_chosen h).2.2
  · cases h

theorem filter_doubleLocks (options : Options) (paths : List LockPath) :
    ((reports options paths).filter fun r => r.kind = "DoubleLock") =
      doubleLockReports (Detection.prepare paths) := by
  simp only [Detection.reports, Evidence.reports, List.filter_append]
  rw [List.filter_eq_self.mpr, List.filter_eq_nil_iff.mpr, List.filter_eq_nil_iff.mpr, List.append_nil,
    List.append_nil]
  · rfl
  · intro r hr
    obtain ⟨c, hc, rfl⟩ := List.mem_map.mp hr
    obtain ⟨ds, hs, _⟩ := subject_of_cycle hc
    simp [Report.kind, hs, Subject.kind]
  · intro r hr
    obtain ⟨d, e, hs⟩ := subject_of_inversionReports hr
    simp [Report.kind, hs, Subject.kind]
  · intro r hr
    obtain ⟨d, hs⟩ := subject_of_doubleLockReports hr
    simp [Report.kind, hs, Subject.kind]

theorem filter_inversions (options : Options) (paths : List LockPath) :
    ((reports options paths).filter fun r =>
        r.kind = "ConflictLock" ∧ r.subject.diagnoses.length = 2) =
      inversionReports (witnesses (Detection.prepare paths)) := by
  simp only [Detection.reports, Evidence.reports, List.filter_append]
  rw [List.filter_eq_nil_iff.mpr, List.filter_eq_self.mpr, List.filter_eq_nil_iff.mpr, List.append_nil,
    List.nil_append]
  · rfl
  · intro r hr
    obtain ⟨c, hc, rfl⟩ := List.mem_map.mp hr
    obtain ⟨ds, hs, hthree⟩ := subject_of_cycle hc
    simp only [Report.kind, hs, Subject.kind, Subject.diagnoses, decide_eq_true_eq, true_and]
    omega
  · intro r hr
    obtain ⟨d, e, hs⟩ := subject_of_inversionReports hr
    simp [Report.kind, hs, Subject.kind, Subject.diagnoses]
  · intro r hr
    obtain ⟨d, hs⟩ := subject_of_doubleLockReports hr
    simp [Report.kind, hs, Subject.kind]

theorem filter_cycles (options : Options) (paths : List LockPath) :
    ((reports options paths).filter fun r =>
        r.kind = "ConflictLock" ∧ 3 ≤ r.subject.diagnoses.length) =
      (evidence options paths).cycles.map fun c => cycleReport c.2 := by
  simp only [Detection.reports, Evidence.reports, List.filter_append]
  rw [List.filter_eq_nil_iff.mpr, List.filter_eq_nil_iff.mpr, List.filter_eq_self.mpr, List.nil_append,
    List.nil_append]
  · intro r hr
    obtain ⟨c, hc, rfl⟩ := List.mem_map.mp hr
    obtain ⟨ds, hs, hthree⟩ := subject_of_cycle hc
    simpa [Report.kind, hs, Subject.kind, Subject.diagnoses] using hthree
  · intro r hr
    obtain ⟨d, e, hs⟩ := subject_of_inversionReports hr
    simp [Report.kind, hs, Subject.kind, Subject.diagnoses]
  · intro r hr
    obtain ⟨d, hs⟩ := subject_of_doubleLockReports hr
    simp [Report.kind, hs, Subject.kind]

end LockAudit.Detection
