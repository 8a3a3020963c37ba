import LockAudit.Proofs.Detection.Answer
import LockAudit.Proofs.Detection.LockOrder

/-! # Order cycles are found exactly

Detection reports each simple cycle of three or more classes of the lock order once, from its smallest
class, unless a single path is all there is to show for it.
-/

namespace LockAudit.Detection

variable {options : Options} {paths : List LockPath} {c : List AliasClass}

/-- All that is known of the order of the classes comes from one path. -/
def OnOnePath (paths : List LockPath) (c : List AliasClass) : Prop :=
  ∃ p, ∀ e ∈ cycleEdges c, ∀ q ∈ paths, Orders q e → q.canonical = p

structure Reportable (options : Options) (paths : List LockPath) (c : List AliasClass) : Prop where
  nodup : c.Nodup
  ordered : ∀ e ∈ cycleEdges c, ∃ p ∈ paths, Orders p e
  three_le : 3 ≤ c.length
  le_maxCycleLength : c.length ≤ options.maxCycleLength
  several : ¬ OnOnePath paths c

structure Witnesses (paths : List LockPath) (w : LockPath × Nesting) (e : AliasClass × AliasClass) :
    Prop where
  path : w.1 ∈ paths
  nesting : w.2.IsWitness w.1
  edge : (w.2.firstClass, w.2.secondClass) = e

structure ShowsNesting (d : Diagnosis) (n : Nesting) : Prop where
  shows : Shows d n.first.event n.second.event
  chains : d.chains = [n.second.event.chain]

/-- The report shows a witness for each edge of the cycle, from two or more paths. -/
def ReportsCycle (paths : List LockPath) (c : List AliasClass) (r : Report) : Prop :=
  ∃ ws : List (LockPath × Nesting), List.Forall₂ (Witnesses paths) ws (cycleEdges c) ∧
    (∃ v ∈ ws, ∃ w ∈ ws, v.1.canonical ≠ w.1.canonical) ∧
    ∃ ds, r.subject = .conflictLock ds ∧ List.Forall₂ (fun d w => ShowsNesting d w.2) ds ws

/-! ### Cycles of the given paths -/

theorem isCycle_orderEdges :
    IsCycle (orderEdges (witnesses (prepare paths))) c ↔
      c.Nodup ∧ ∀ e ∈ cycleEdges c, ∃ p ∈ paths, Orders p e := by
  constructor
  · intro h
    exact ⟨h.nodup, fun e he => mem_orderEdges.mp (h.ordered e he)⟩
  · rintro ⟨hnodup, hordered⟩
    exact ⟨hnodup, fun e he => mem_orderEdges.mpr (hordered e he)⟩

theorem edgesKeyed_orderEdges (hk : ∀ p ∈ paths, p.isKeyed = true) :
    EdgesKeyed (orderEdges (witnesses (prepare paths))) := by
  intro e he
  obtain ⟨p, hp, _, n, hn, hfirst, hsecond⟩ := mem_orderEdges.mp he
  have hnested : NestedOn paths p.degraded n := ⟨p, hp, rfl, mem_nestings_iff.mpr hn⟩
  rw [← hfirst, ← hsecond]
  exact hnested.isKeyed hk

/-- A path that orders an edge has a witness of it. -/
theorem exists_witnessOf {p : LockPath} {e : AliasClass × AliasClass} (hp : p ∈ paths)
    (h : Orders p e) :
    ∃ w q, w ∈ witnessesOf (witnesses (prepare paths)) e ∧ w.Of paths q ∧ q.canonical = p.canonical := by
  obtain ⟨n, hn, rfl⟩ := h.exists_isWitness
  obtain ⟨w, q, hw, hqp, halike⟩ := exists_witness hp hn
  have hedge : w.edge = (n.firstClass, n.secondClass) := Prod.ext halike.firstClass halike.secondClass
  exact ⟨w, q, List.mem_filter.mpr ⟨mem_witnesses.mpr ⟨q, hw⟩, decide_eq_true hedge⟩, hw, hqp⟩

def Witness.placed (paths : List LockPath) (w : Witness) : LockPath × Nesting :=
  ((prepare paths)[w.path]?.getD default, w.nesting)

theorem of_placed {w : Witness} (h : w ∈ witnesses (prepare paths)) : w.Of paths (w.placed paths).1 := by
  obtain ⟨p, hp⟩ := mem_witnesses.mp h
  have hplaced : (w.placed paths).1 = p := by rw [Witness.placed, hp.path, Option.getD_some]
  rwa [hplaced]

/-- The chosen witnesses of a cycle show it on the given paths. -/
theorem reportsCycle_of_mem {bound : Nat} {c : List AliasClass × List Witness}
    (h : c ∈ spreadCycles (witnesses (prepare paths)) bound) :
    ReportsCycle paths c.1 (cycleReport c.2) := by
  obtain ⟨hchosen, ⟨v, hv, w, hw, hvw⟩, _⟩ := spreadCycles_chosen h
  have hof : ∀ x ∈ c.2, x.Of paths (x.placed paths).1 := by
    intro x hx
    obtain ⟨_, _, hmem, _⟩ := exists_of_forall₂ hchosen hx
    exact of_placed hmem
  refine ⟨c.2.map (Witness.placed paths), ?_, ?_, ?_⟩
  · rw [List.forall₂_map_left_iff]
    refine hchosen.imp ?_
    rintro x e ⟨hx, he⟩
    exact ⟨(of_placed hx).mem, (of_placed hx).nesting, he⟩
  · refine ⟨_, List.mem_map_of_mem hv, _, List.mem_map_of_mem hw, ?_⟩
    intro he
    exact hvw (((hof v hv).path_eq_iff (hof w hw)).mpr he)
  · refine ⟨_, rfl, ?_⟩
    rw [List.forall₂_map_left_iff, List.forall₂_map_right_iff, List.forall₂_same]
    exact fun w _ => ⟨shows_diagnosis _ _ _, rfl⟩

theorem not_onOnePath_of_mem {bound : Nat} {c : List AliasClass × List Witness}
    (h : c ∈ spreadCycles (witnesses (prepare paths)) bound) : ¬ OnOnePath paths c.1 := by
  obtain ⟨ws, hwitnesses, ⟨v, hv, w, hw, hvw⟩, _⟩ := reportsCycle_of_mem h
  rintro ⟨p, hall⟩
  have hsame : ∀ x ∈ ws, x.1.canonical = p := by
    intro x hx
    obtain ⟨e, he, hx⟩ := exists_of_forall₂ hwitnesses hx
    exact hall e he x.1 hx.path (hx.edge ▸ hx.nesting.orders)
  exact hvw ((hsame v hv).trans (hsame w hw).symm)

/-- A cycle that is not on one path has witnesses to show. -/
theorem Reportable.exists_chosen (h : Reportable options paths c) :
    ∃ chosen, spreadWitnesses ((cycleEdges c).map (witnessesOf (witnesses (prepare paths)))) =
      some chosen := by
  have hwitness : ∀ {e q}, e ∈ cycleEdges c → q ∈ paths → Orders q e →
      ∃ w q', w ∈ ((cycleEdges c).map (witnessesOf (witnesses (prepare paths)))).flatten ∧
        w.Of paths q' ∧ q'.canonical = q.canonical := by
    intro e q he hq horders
    obtain ⟨w, q', hw, hof, hqq⟩ := exists_witnessOf hq horders
    exact ⟨w, q', List.mem_flatten.mpr ⟨_, List.mem_map_of_mem he, hw⟩, hof, hqq⟩
  refine exists_spreadWitnesses ?_ ?_
  · intro ws hws
    obtain ⟨e, he, rfl⟩ := List.mem_map.mp hws
    obtain ⟨p, hp, horders⟩ := h.ordered e he
    obtain ⟨w, _, hw, _⟩ := exists_witnessOf hp horders
    exact List.ne_nil_of_mem hw
  · have hpos : 0 < (cycleEdges c).length := by
      rw [length_cycleEdges]
      have hthree := h.three_le
      omega
    obtain ⟨e, he⟩ := List.exists_mem_of_length_pos hpos
    obtain ⟨p, hp, horders⟩ := h.ordered e he
    obtain ⟨v, p', hv, hvof, hpp⟩ := hwitness he hp horders
    -- The cycle is not on the path of this witness alone, so there is one on another.
    have hother : ∃ f ∈ cycleEdges c, ∃ q ∈ paths, Orders q f ∧ q.canonical ≠ p'.canonical := by
      by_contra hnone
      refine h.several ⟨p'.canonical, fun f hf q hq hordersq => ?_⟩
      by_contra hne
      exact hnone ⟨f, hf, q, hq, hordersq, hne⟩
    obtain ⟨f, hf, q, hq, hordersq, hne⟩ := hother
    obtain ⟨w, q', hw, hwof, hqq⟩ := hwitness hf hq hordersq
    refine ⟨w, hw, v, hv, ?_⟩
    rw [ne_eq, hwof.path_eq_iff hvof, hqq]
    exact hne

def reportedCycles (options : Options) (paths : List LockPath) : List (List AliasClass) :=
  (evidence options paths).cycles.map Prod.fst

/-- A cycle is reported from its smallest class, unless all that is known of it comes from one path. -/
theorem mem_reportedCycles (hk : ∀ p ∈ paths, p.isKeyed = true) :
    c ∈ reportedCycles options paths ↔ Reportable options paths c ∧ StartsSmallest c := by
  unfold reportedCycles evidence
  dsimp only
  constructor
  · intro h
    split at h
    · rename_i hmax
      obtain ⟨x, hx, rfl⟩ := List.mem_map.mp h
      obtain ⟨hthree, hlength, hcycle, hsmallest⟩ :=
        (simpleCycles_exact _ _ hmax).of_mem_cycles (mem_spreadCycles_iff.mp hx).1
      obtain ⟨hnodup, hordered⟩ := isCycle_orderEdges.mp hcycle
      exact ⟨⟨hnodup, hordered, hthree, hlength, not_onOnePath_of_mem hx⟩, hsmallest⟩
    · cases h
  · rintro ⟨h, hsmallest⟩
    obtain ⟨chosen, hchosen⟩ := h.exists_chosen
    have hmax := h.three_le.trans h.le_maxCycleLength
    have hcycle := ((simpleCycles_exact _ _ hmax).mem_cycles_iff (edgesKeyed_orderEdges hk)).mpr
      ⟨h.three_le, h.le_maxCycleLength, isCycle_orderEdges.mpr ⟨h.nodup, h.ordered⟩, hsmallest⟩
    rw [if_pos hmax]
    exact List.mem_map.mpr ⟨(c, chosen), mem_spreadCycles_iff.mpr ⟨hcycle, hchosen⟩, rfl⟩

theorem reportedCycles_ascending (hk : ∀ p ∈ paths, p.isKeyed = true) :
    (reportedCycles options paths).Pairwise fun c d => compare c d = .lt := by
  unfold reportedCycles evidence
  dsimp only
  split
  · rename_i hmax
    rw [List.pairwise_map]
    refine ((simpleCycles_exact _ _ hmax).cycles_ascending (edgesKeyed_orderEdges hk)).filterMap _ ?_
    intro c d hcd x hx y hy
    obtain ⟨_, _, rfl⟩ := Option.map_eq_some_iff.mp hx
    obtain ⟨_, _, rfl⟩ := Option.map_eq_some_iff.mp hy
    exact hcd
  · exact .nil

theorem reportedCycles_shown (options : Options) (paths : List LockPath) :
    List.Forall₂ (ReportsCycle paths) (reportedCycles options paths)
      ((evidence options paths).cycles.map fun c => cycleReport c.2) := by
  rw [reportedCycles, List.forall₂_map_left_iff, List.forall₂_map_right_iff, List.forall₂_same]
  intro c hc
  dsimp only [evidence] at hc
  split at hc
  · exact reportsCycle_of_mem hc
  · cases hc

/-! ### Cycles up to where they start -/

theorem Reportable.rotate (h : Reportable options paths c) (n : Nat) :
    Reportable options paths (c.rotate n) := by
  have hedges : ∀ e, e ∈ cycleEdges (c.rotate n) ↔ e ∈ cycleEdges c := by
    intro e
    rw [cycleEdges_rotate, List.mem_rotate]
  refine ⟨List.nodup_rotate.mpr h.nodup, fun e he => h.ordered e ((hedges e).mp he), ?_, ?_, ?_⟩
  · rw [List.length_rotate]
    exact h.three_le
  · rw [List.length_rotate]
    exact h.le_maxCycleLength
  · rintro ⟨p, hall⟩
    exact h.several ⟨p, fun e he => hall e ((hedges e).mpr he)⟩

theorem Reportable.existsUnique_rotated (h : Reportable options paths c)
    (hk : ∀ p ∈ paths, p.isKeyed = true) : ∃! d, d ∈ reportedCycles options paths ∧ d ~r c := by
  have hne : c ≠ [] := by
    rintro rfl
    exact absurd h.three_le (by simp)
  obtain ⟨n, hn⟩ := fromSmallest_isRotated c
  have hsmallest := startsSmallest_fromSmallest c
  rw [← hn] at hsmallest
  refine ⟨c.rotate n, ⟨(mem_reportedCycles hk).mpr ⟨h.rotate n, hsmallest⟩, .forall c n⟩, ?_⟩
  rintro d ⟨hd, hdc⟩
  obtain ⟨hreportable, hsmallest'⟩ := (mem_reportedCycles hk).mp hd
  have hcycle := isCycle_orderEdges.mpr ⟨hreportable.nodup, hreportable.ordered⟩
  exact hsmallest'.eq_of_isRotated (fun a ha => hcycle.isKeyed (edgesKeyed_orderEdges hk) ha)
    hreportable.nodup hsmallest (hdc.trans (.symm (.forall c n)))

/-! ### Other searches -/

theorem evidence_eq {search : CycleSearch} (hs : search.Exact) (hk : ∀ p ∈ paths, p.isKeyed = true) :
    evidence options paths search = evidence options paths := by
  unfold evidence
  dsimp only
  split
  · rename_i hmax
    have hcycles := (hs _ _ hmax).cycles_eq (simpleCycles_exact _ _ hmax) (edgesKeyed_orderEdges hk)
    rw [spreadCycles, spreadCycles, hcycles]
  · rfl

/-- Whichever exact search finds the cycles, detection comes to the same. -/
theorem detect_eq {search : CycleSearch} (hs : search.Exact) (options : Options) (paths : List LockPath) :
    detect options paths search = detect options paths := by
  unfold detect fault?
  by_cases hk : paths.all LockPath.isKeyed = true
  · rw [evidence_eq hs (List.all_eq_true.mp hk)]
  · simp [hk]

/-- Let detection run with any exact search for simple cycles. Whenever it answers, and it does on all paths
whose names are texts, its conflicts of three or more classes are the cycles of the lock order that are no
longer than the options allow and not on one path. Each cycle is reported once, wherever one starts to list
it, and from its smallest class. -/
theorem cycles_exact {search : CycleSearch} (hs : search.Exact) (options : Options) (paths : List LockPath) :
    (Textual paths → ∃ found, detect options paths search = .ok found) ∧
    ∀ found, detect options paths search = .ok found →
      ∃ cs : List (List AliasClass),
        (∀ c ∈ cs, Reportable options paths c ∧ StartsSmallest c) ∧
        (∀ c, Reportable options paths c → ∃! d, d ∈ cs ∧ d ~r c) ∧
        (cs.Pairwise fun c d => compare c d = .lt) ∧
        (options.maxCycleLength = 2 → cs = []) ∧
        List.Forall₂ (ReportsCycle paths) cs
          (found.reports.filter fun r => r.kind = "ConflictLock" ∧ 3 ≤ r.subject.diagnoses.length) := by
  rw [detect_eq hs]
  refine ⟨fun h => h.detect options, ?_⟩
  intro found hfound
  have h := answered hfound
  refine ⟨reportedCycles options paths, fun c hc => (mem_reportedCycles h.keyed).mp hc,
    fun c hc => hc.existsUnique_rotated h.keyed, reportedCycles_ascending h.keyed, ?_, ?_⟩
  · intro htwo
    refine List.eq_nil_iff_forall_not_mem.mpr fun c hc => ?_
    have hreportable := ((mem_reportedCycles h.keyed).mp hc).1
    have hthree := hreportable.three_le
    have hmax := hreportable.le_maxCycleLength
    omega
  · rw [h.reports, filter_cycles]
    exact reportedCycles_shown options paths

def roundabout : List LockPath :=
  [acquiring "A" "B" 1, acquiring "B" "C" 3, acquiring "C" "A" 5]

/-- Three paths that take three locks in turn make a cycle that is reported. -/
theorem cycles_exact_roundabout :
    Textual roundabout ∧ ∃ found, detect {} roundabout = .ok found ∧
      ∃ c r, c ~r [.static (.str "A"), .static (.str "B"), .static (.str "C")] ∧ r ∈ found.reports ∧
        r.kind = "ConflictLock" ∧ 3 ≤ r.subject.diagnoses.length ∧ ReportsCycle roundabout c r := by
  have htextual : Textual roundabout := by
    intro p hp
    simp only [roundabout, List.mem_cons, List.not_mem_nil, or_false] at hp
    rcases hp with rfl | rfl | rfl <;> decide
  have hreportable : Reportable {} roundabout
      [.static (.str "A"), .static (.str "B"), .static (.str "C")] := by
    have hab : Orders (acquiring "A" "B" 1) (.static (.str "A"), .static (.str "B")) :=
      (isWitness_acquisitions (by decide) 1).orders
    have hbc : Orders (acquiring "B" "C" 3) (.static (.str "B"), .static (.str "C")) :=
      (isWitness_acquisitions (by decide) 3).orders
    have hca : Orders (acquiring "C" "A" 5) (.static (.str "C"), .static (.str "A")) :=
      (isWitness_acquisitions (by decide) 5).orders
    refine ⟨by decide, ?_, by decide, by decide, ?_⟩
    · intro e he
      simp only [cycleEdges, List.drop_succ_cons, List.drop_zero, List.take_succ_cons, List.take_zero,
        List.cons_append, List.nil_append, List.zip_cons_cons, List.zip_nil_right, List.mem_cons,
        List.not_mem_nil, or_false] at he
      rcases he with rfl | rfl | rfl
      · exact ⟨_, by simp [roundabout], hab⟩
      · exact ⟨_, by simp [roundabout], hbc⟩
      · exact ⟨_, by simp [roundabout], hca⟩
    · rintro ⟨p, hall⟩
      have hfirst := hall _ (by simp [cycleEdges]) _ (by simp [roundabout]) hab
      have hsecond := hall _ (by simp [cycleEdges]) _ (by simp [roundabout]) hbc
      exact absurd (hfirst.trans hsecond.symm) (by decide)
  refine ⟨htextual, ?_⟩
  obtain ⟨hanswers, hexact⟩ := cycles_exact simpleCycles_exact {} roundabout
  obtain ⟨found, hfound⟩ := hanswers htextual
  obtain ⟨cs, _, hcomplete, _, _, hreports⟩ := hexact found hfound
  obtain ⟨c, ⟨hc, hrotated⟩, _⟩ := hcomplete _ hreportable
  obtain ⟨r, hr, hsays⟩ := exists_of_forall₂ hreports hc
  obtain ⟨hmem, hkind⟩ := List.mem_filter.mp hr
  obtain ⟨hkind, hthree⟩ := of_decide_eq_true hkind
  exact ⟨found, hfound, c, r, hrotated, hmem, hkind, hthree, hsays⟩

end LockAudit.Detection
