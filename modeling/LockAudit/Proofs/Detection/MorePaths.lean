import LockAudit.Proofs.Detection.PathOrder
import LockAudit.Proofs.Order.Related

/-! # More paths

Detection on more paths finds all that it finds on fewer. A double lock or a conflict of two classes that is
probable stays so. A cycle is graded by the witnesses that are shown, and added paths may take their places:
where no two paths tie, its report stays the same unless it shows one of the added paths.
-/

namespace LockAudit.Detection

variable {options : Options} {paths paths' : List LockPath}

/-! ### The exchange of witnesses -/

theorem mapM_head?_of_leads {chosen : List (Witness × List Witness)} (h : ∀ c ∈ chosen, LeadsItsList c) :
    (chosen.map Prod.snd).mapM (fun ws => ws.head?.map fun w => (w, ws)) = some chosen := by
  induction chosen with
  | nil => rfl
  | cons c chosen ih =>
    obtain ⟨hc, hrest⟩ := List.forall_mem_cons.mp h
    rw [List.map_cons, List.mapM_cons, ih hrest, show c.2.head? = some c.1 from hc]
    rfl

/-- Among witnesses that each lead their list, the choice goes by the path of the first. -/
theorem spreadWitnesses_of_leads {c : Witness × List Witness} {rest : List (Witness × List Witness)}
    (h : ∀ d ∈ c :: rest, LeadsItsList d) :
    spreadWitnesses ((c :: rest).map Prod.snd) =
      if rest.any fun d => d.1.path != c.1.path then some ((c :: rest).map Prod.fst)
      else spreadFrom c.1.path (c :: rest) := by
  unfold spreadWitnesses
  rw [mapM_head?_of_leads h]

theorem exists_leads {edges : List (List Witness)} {out : List Witness}
    (h : spreadWitnesses edges = some out) :
    ∃ c rest, (c :: rest).map Prod.snd = edges ∧ ∀ d ∈ c :: rest, LeadsItsList d := by
  unfold spreadWitnesses at h
  split at h
  · cases h
  · cases h
  · rename_i w ws rest hm
    exact ⟨(w, ws), rest, mapM_head?_eq_some hm⟩

section Filter

variable {keep : Witness → Bool}

theorem find?_filter_of_keep {p : Witness → Bool} {ws : List Witness} {w : Witness}
    (h : ws.find? p = some w) (hw : keep w = true) : (ws.filter keep).find? p = some w := by
  obtain ⟨hp, before, after, rfl, hbefore⟩ := List.find?_eq_some_iff_append.mp h
  refine List.find?_eq_some_iff_append.mpr
    ⟨hp, before.filter keep, after.filter keep, by simp [hw], fun v hv => ?_⟩
  exact hbefore v (List.mem_filter.mp hv).1

/-- A choice of witnesses stays where candidates are left out that were not chosen. -/
theorem spreadFrom_filter {path : Nat} {chosen : List (Witness × List Witness)} {out : List Witness}
    (h : spreadFrom path chosen = some out) (hkeep : ∀ w ∈ out, keep w = true) :
    spreadFrom path (chosen.map fun c => (c.1, c.2.filter keep)) = some out := by
  induction chosen generalizing out with
  | nil => cases h
  | cons c rest ih =>
    obtain ⟨first, candidates⟩ := c
    simp only [spreadFrom, List.map_cons] at h ⊢
    split at h
    · rename_i w hw
      cases h
      rw [find?_filter_of_keep hw (hkeep w List.mem_cons_self), List.map_map]
      rfl
    · rename_i hnone
      obtain ⟨out, hout, rfl⟩ := Option.map_eq_some_iff.mp h
      have hnone' : (candidates.filter keep).find? (fun w => w.path != path) = none := by
        refine List.find?_eq_none.mpr fun w hw => ?_
        exact List.find?_eq_none.mp hnone w (List.mem_filter.mp hw).1
      rw [hnone', ih hout (List.forall_mem_cons.mp hkeep).2]
      rfl

/-- If the witnesses that are shown are all on paths that are kept, they are also shown when the witnesses
on all other paths are left out. -/
theorem spreadWitnesses_filter (hpath : ∀ v w : Witness, v.path = w.path → keep v = keep w)
    {edges : List (List Witness)} (htwo : 2 ≤ edges.length) {out : List Witness}
    (h : spreadWitnesses edges = some out) (hkeep : ∀ w ∈ out, keep w = true) :
    spreadWitnesses (edges.map (List.filter keep)) = some out := by
  obtain ⟨c, rest, rfl, hlead⟩ := exists_leads h
  rw [spreadWitnesses_of_leads hlead] at h
  -- The leading witnesses are kept: they are shown, or they are on one path with one that is.
  have hfirst : ∀ d ∈ c :: rest, keep d.1 = true := by
    intro d hd
    split at h
    · cases h
      exact hkeep d.1 (List.mem_map_of_mem hd)
    · rename_i hsame
      have hone : ∀ d ∈ c :: rest, d.1.path = c.1.path :=
        List.forall_mem_cons.mpr ⟨rfl, by simpa using hsame⟩
      rw [List.length_map] at htwo
      obtain ⟨w, hw, hwpath⟩ := (spreadFrom_eq_some hlead hone h).2.2 htwo
      rw [hpath d.1 w ((hone d hd).trans hwpath.symm)]
      exact hkeep w hw
  have hlead' : ∀ d ∈ (c :: rest).map fun d => (d.1, d.2.filter keep), LeadsItsList d := by
    rw [List.forall_mem_map]
    intro d hd
    obtain ⟨tail, htail⟩ := List.head?_eq_some_iff.mp (hlead d hd)
    simp [LeadsItsList, htail, hfirst d hd]
  have hedges : ((c :: rest).map Prod.snd).map (List.filter keep) =
      ((c :: rest).map fun d => (d.1, d.2.filter keep)).map Prod.snd := by
    simp only [List.map_map]
    rfl
  rw [hedges, List.map_cons, spreadWitnesses_of_leads hlead', List.any_map]
  split at h
  · rename_i hseveral
    refine (if_pos hseveral).trans ?_
    rw [← h, List.map_cons, List.map_map]
    rfl
  · rename_i hsame
    exact (if_neg hsame).trans (spreadFrom_filter h hkeep)

end Filter

/-! ### Witnesses on both sides -/

section Related

variable {R : Witness → Witness → Prop}
  (hR : ∀ {v w v' w' : Witness}, R v w → R v' w' → (v.path = v'.path ↔ w.path = w'.path))

def RelatedChoices (R : Witness → Witness → Prop) (c d : Witness × List Witness) : Prop :=
  R c.1 d.1 ∧ List.Forall₂ R c.2 d.2

theorem fst_of_relatedChoices {cs ds : List (Witness × List Witness)}
    (h : List.Forall₂ (RelatedChoices R) cs ds) : List.Forall₂ R (cs.map Prod.fst) (ds.map Prod.fst) := by
  rw [List.forall₂_map_left_iff, List.forall₂_map_right_iff]
  exact h.imp fun _ _ hcd => hcd.1

theorem exists_relatedChoices {cs : List (Witness × List Witness)} (hlead : ∀ c ∈ cs, LeadsItsList c)
    {edges : List (List Witness)} (h : List.Forall₂ (List.Forall₂ R) (cs.map Prod.snd) edges) :
    ∃ ds, ds.map Prod.snd = edges ∧ (∀ d ∈ ds, LeadsItsList d) ∧
      List.Forall₂ (RelatedChoices R) cs ds := by
  induction cs generalizing edges with
  | nil =>
    cases h
    exact ⟨[], rfl, by simp, .nil⟩
  | cons c cs ih =>
    obtain ⟨hc, hcs⟩ := List.forall_mem_cons.mp hlead
    obtain ⟨ws, edges, hws, hedges, rfl⟩ := List.forall₂_cons_left_iff.mp h
    obtain ⟨ds, rfl, hleads, hrelated⟩ := ih hcs hedges
    obtain ⟨tail, htail⟩ := List.head?_eq_some_iff.mp hc
    have hwhole := hws
    rw [htail] at hws
    obtain ⟨w, ws, hw, _, rfl⟩ := List.forall₂_cons_left_iff.mp hws
    exact ⟨(w, w :: ws) :: ds, rfl, List.forall_mem_cons.mpr ⟨rfl, hleads⟩,
      .cons ⟨hw, hwhole⟩ hrelated⟩

include hR

theorem bne_path_eq {v w v' w' : Witness} (h : R v w) (h' : R v' w') :
    (w.path != w'.path) = (v.path != v'.path) := by
  rw [Bool.eq_iff_iff, bne_iff_ne, bne_iff_ne, ne_eq, ne_eq, hR h h']

/-- Related candidates lead to related choices. -/
theorem spreadFrom_related {v w : Witness} (hvw : R v w) {cs ds : List (Witness × List Witness)}
    (h : List.Forall₂ (RelatedChoices R) cs ds) :
    Option.Rel (List.Forall₂ R) (spreadFrom v.path cs) (spreadFrom w.path ds) := by
  induction h with
  | nil => exact .none
  | @cons c d cs ds hcd hrest ih =>
    have hfind := rel_find? (fun x y hxy => bne_path_eq hR hxy hvw) hcd.2
    simp only [spreadFrom]
    generalize c.2.find? (fun x => x.path != v.path) = x at hfind ⊢
    generalize d.2.find? (fun y => y.path != w.path) = y at hfind ⊢
    generalize spreadFrom v.path cs = out at ih ⊢
    generalize spreadFrom w.path ds = out' at ih ⊢
    cases hfind with
    | some hx => exact .some (.cons hx (fst_of_relatedChoices hrest))
    | none =>
      cases ih with
      | some hout => exact .some (.cons hcd.1 hout)
      | none => exact .none

/-- Which witnesses are chosen depends on them only by which of them are on one path. -/
theorem spreadWitnesses_related {edges edges' : List (List Witness)}
    (h : List.Forall₂ (List.Forall₂ R) edges edges') {out : List Witness}
    (hout : spreadWitnesses edges = some out) :
    ∃ out', spreadWitnesses edges' = some out' ∧ List.Forall₂ R out out' := by
  obtain ⟨c, cs, rfl, hlead⟩ := exists_leads hout
  obtain ⟨ds, rfl, hlead', hrelated⟩ := exists_relatedChoices hlead h
  obtain ⟨d, ds, hcd, hrest, rfl⟩ := List.forall₂_cons_left_iff.mp hrelated
  have hseveral : (ds.any fun y => y.1.path != d.1.path) = cs.any fun x => x.1.path != c.1.path :=
    any_eq_of_forall₂ (fun x y hxy => bne_path_eq hR hxy.1 hcd.1) hrest
  rw [spreadWitnesses_of_leads hlead, ← hseveral] at hout
  rw [spreadWitnesses_of_leads hlead']
  split at hout
  · rename_i hany
    cases hout
    exact ⟨_, if_pos hany, fst_of_relatedChoices hrelated⟩
  · rename_i hany
    have hrel := spreadFrom_related hR hcd.1 hrelated
    rw [hout] at hrel
    rw [if_neg hany]
    generalize spreadFrom d.1.path (d :: ds) = out' at hrel ⊢
    cases hrel with
    | some h => exact ⟨_, rfl, h⟩

end Related

/-! ### Witnesses on fewer and on more paths -/

/-- No two different paths compare as equal. -/
def Untied (paths : List LockPath) : Prop :=
  ∀ p ∈ paths, ∀ q ∈ paths, compare p q = .eq → p = q

theorem Untied.mono (hsub : ∀ p ∈ paths, p ∈ paths') (h : Untied paths') : Untied paths :=
  fun p hp q hq => h p (hsub p hp) q (hsub q hq)

theorem Textual.mono (hsub : ∀ p ∈ paths, p ∈ paths') (h : Textual paths') : Textual paths :=
  fun p hp => h p (hsub p hp)

theorem prepare_rising (htextual : Textual paths) (huntied : Untied paths) :
    (prepare paths).Pairwise fun p q => compare p q = .lt := by
  have hsub := (distinctOn_sublist LockPath.canonical paths).subset
  have hnodup : ((distinctOn LockPath.canonical paths).map id).Nodup := by
    rw [List.map_id]
    exact nodup_distinctOn paths
  rw [htextual.prepare_eq]
  exact sortOn_rising (fun p hp q hq => huntied p (hsub hp) q (hsub hq)) hnodup

/-- The fewer paths stand in the order that they have among the more. -/
theorem prepare_filter (htextual : Textual paths') (huntied : Untied paths')
    (hsub : ∀ p ∈ paths, p ∈ paths') : prepare paths = (prepare paths').filter (· ∈ paths) := by
  refine eq_of_rising id (prepare_rising (htextual.mono hsub) (huntied.mono hsub))
    ((prepare_rising htextual huntied).filter _) fun p => ?_
  rw [List.mem_filter, decide_eq_true_iff, mem_prepare_iff, mem_prepare_iff,
    mem_distinctOn_of_untied huntied, mem_distinctOn_of_untied (huntied.mono hsub)]
  exact ⟨fun hp => ⟨hsub p hp, hp⟩, And.right⟩

def firstNestings (p : LockPath) : List (LockPath × Nesting) :=
  (distinctOn (fun n => (n.firstClass, n.secondClass)) (orderings p)).map fun n => (p, n)

theorem map_placed_witnesses (paths : List LockPath) :
    (witnesses (prepare paths)).map (Witness.placed paths) = (prepare paths).flatMap firstNestings := by
  have hpath : ∀ x ∈ (prepare paths).zipIdx,
      (pathWitnesses x.2 x.1).map (Witness.placed paths) = firstNestings x.1 := by
    intro x hx
    have hget := List.mem_zipIdx_iff_getElem?.mp hx
    simp only [pathWitnesses, firstNestings, List.map_map]
    refine List.map_congr_left fun n _ => ?_
    simp [Witness.placed, hget]
  rw [witnesses, List.map_flatMap, List.flatMap_congr hpath, ← List.flatMap_map, List.zipIdx_map_fst]

structure Counterpart (paths paths' : List LockPath) (v w : Witness) : Prop where
  left : v ∈ witnesses (prepare paths)
  right : w ∈ witnesses (prepare paths')
  placed : v.placed paths = w.placed paths'

namespace Counterpart

variable {v w v' w' : Witness}

theorem nesting (h : Counterpart paths paths' v w) : v.nesting = w.nesting :=
  congrArg Prod.snd h.placed

theorem degraded (h : Counterpart paths paths' v w) : v.degraded = w.degraded := by
  rw [(of_placed h.left).degraded, (of_placed h.right).degraded, h.placed]

theorem path_eq_iff (h : Counterpart paths paths' v w) (h' : Counterpart paths paths' v' w') :
    v.path = v'.path ↔ w.path = w'.path := by
  rw [(of_placed h.left).path_eq_iff (of_placed h'.left),
    (of_placed h.right).path_eq_iff (of_placed h'.right), h.placed, h'.placed]

theorem surelyWaits_eq (h : Counterpart paths paths' v w) (h' : Counterpart paths paths' v' w') :
    surelyWaits v v' = surelyWaits w w' := by
  have hpath : (v.path == v'.path) = (w.path == w'.path) := by
    rw [Bool.eq_iff_iff, beq_iff_eq, beq_iff_eq, h.path_eq_iff h']
  simp only [surelyWaits, Witness.first, Witness.second, h.nesting, h'.nesting, h.degraded, hpath]

theorem waitsAround_eq {head head' : Witness} (hhead : Counterpart paths paths' head head')
    (h : Counterpart paths paths' v w) {vs ws : List Witness}
    (hrest : List.Forall₂ (Counterpart paths paths') vs ws) :
    waitsAround head v vs = waitsAround head' w ws := by
  induction hrest generalizing v w with
  | nil => exact h.surelyWaits_eq hhead
  | cons hnext _ ih => rw [waitsAround, waitsAround, h.surelyWaits_eq hnext, ih hnext]

/-- A report shows the nestings and grades them by their kinds, not by the numbers of the paths. -/
theorem cycleReport_eq {vs ws : List Witness} (h : List.Forall₂ (Counterpart paths paths') vs ws) :
    cycleReport vs = cycleReport ws := by
  have hgrade : conflictPossibility vs = conflictPossibility ws := by
    cases h with
    | nil => rfl
    | cons hvw hrest => rw [conflictPossibility, conflictPossibility, waitsAround_eq hvw hvw hrest]
  have hshown : vs.map Witness.nesting = ws.map Witness.nesting := by
    rw [← List.forall₂_eq_eq_eq, List.forall₂_map_left_iff, List.forall₂_map_right_iff]
    exact h.imp fun _ _ hvw => hvw.nesting
  have hdiagnoses := congrArg
    (List.map fun n : Nesting => diagnosis n.first.event n.second.event [n.second.event.chain]) hshown
  rw [List.map_map, List.map_map] at hdiagnoses
  exact congrArg₂ (fun grade ds => Report.make grade (.conflictLock ds)) hgrade hdiagnoses

end Counterpart

def Witness.onOneOf (paths paths' : List LockPath) (w : Witness) : Bool :=
  (w.placed paths').1 ∈ paths

theorem flatMap_firstNestings_filter (ps : List LockPath) :
    (ps.filter (· ∈ paths)).flatMap firstNestings =
      (ps.flatMap firstNestings).filter fun x => x.1 ∈ paths := by
  have hpath : ∀ p, (firstNestings p).filter (fun x => x.1 ∈ paths) =
      if p ∈ paths then firstNestings p else [] := by
    intro p
    by_cases hp : p ∈ paths <;> simp [firstNestings, List.filter_map, Function.comp_def, hp]
  induction ps with
  | nil => rfl
  | cons p ps ih =>
    rw [List.flatMap_cons, List.filter_append, ← ih, hpath]
    by_cases hp : p ∈ paths <;> simp [hp]

theorem witnesses_counterparts (htextual : Textual paths') (huntied : Untied paths')
    (hsub : ∀ p ∈ paths, p ∈ paths') :
    List.Forall₂ (Counterpart paths' paths)
      ((witnesses (prepare paths')).filter (Witness.onOneOf paths paths'))
      (witnesses (prepare paths)) := by
  have hplaced : ((witnesses (prepare paths')).filter (Witness.onOneOf paths paths')).map
      (Witness.placed paths') = (witnesses (prepare paths)).map (Witness.placed paths) := by
    rw [map_placed_witnesses, prepare_filter htextual huntied hsub, flatMap_firstNestings_filter,
      ← map_placed_witnesses, List.filter_map]
    rfl
  rw [← List.forall₂_eq_eq_eq, List.forall₂_map_left_iff, List.forall₂_map_right_iff,
    List.forall₂_iff_zip] at hplaced
  refine List.forall₂_iff_zip.mpr ⟨hplaced.1, fun {v w} hvw => ?_⟩
  obtain ⟨hv, hw⟩ := List.of_mem_zip hvw
  exact ⟨(List.mem_filter.mp hv).1, hw, hplaced.2 hvw⟩

theorem witnessesOf_counterparts (htextual : Textual paths') (huntied : Untied paths')
    (hsub : ∀ p ∈ paths, p ∈ paths') (e : AliasClass × AliasClass) :
    List.Forall₂ (Counterpart paths' paths)
      ((witnessesOf (witnesses (prepare paths')) e).filter (Witness.onOneOf paths paths'))
      (witnessesOf (witnesses (prepare paths)) e) := by
  rw [witnessesOf, List.filter_comm]
  refine List.rel_filter (fun v w hvw => ?_) (witnesses_counterparts htextual huntied hsub)
  have hedge : v.edge = w.edge := by rw [Witness.edge, Witness.edge, hvw.nesting]
  exact iff_of_eq (congrArg (fun x => decide (x = e) = true) hedge)

/-! ### Findings on more paths -/

theorem Relocks.mono (hsub : ∀ p ∈ paths, p ∈ paths') {k : DoubleLockKey} {p : LockPath} {n : Nesting}
    (h : Relocks paths k p n) : Relocks paths' k p n :=
  { h with path := hsub p h.path }

theorem Conflicts.mono (hsub : ∀ p ∈ paths, p ∈ paths') {k : InversionKey} {p q : LockPath}
    {m n : Nesting} (h : Conflicts paths k p q m n) : Conflicts paths' k p q m n :=
  { h with forwardPath := hsub p h.forwardPath, backwardPath := hsub q h.backwardPath }

theorem Reportable.mono (hsub : ∀ p ∈ paths, p ∈ paths') {c : List AliasClass}
    (h : Reportable options paths c) : Reportable options paths' c := by
  refine { h with ordered := fun e he => ?_, several := ?_ }
  · obtain ⟨p, hp, horders⟩ := h.ordered e he
    exact ⟨p, hsub p hp, horders⟩
  · rintro ⟨p, hall⟩
    exact h.several ⟨p, fun e he q hq => hall e he q (hsub q hq)⟩

def ShowsAdded (paths paths' : List LockPath) (c : List AliasClass) (r : Report) : Prop :=
  ∃ w, ∃ e ∈ cycleEdges c, Witnesses paths' w e ∧ w.1 ∉ paths ∧
    ∃ d ∈ r.subject.diagnoses, ShowsNesting d w.2

theorem mem_spreadCycles_of_evidence {c : List AliasClass × List Witness}
    (h : c ∈ (evidence options paths).cycles) :
    c ∈ spreadCycles (witnesses (prepare paths)) options.maxCycleLength := by
  dsimp only [evidence] at h
  split at h
  · exact h
  · cases h

/-- A cycle that is found on fewer paths is found on more, and where no two paths tie, its report is the
same unless it shows an added path. -/
theorem cycle_kept (hk : ∀ p ∈ paths', p.isKeyed = true) (hsub : ∀ p ∈ paths, p ∈ paths')
    {c : List AliasClass × List Witness} (hc : c ∈ (evidence options paths).cycles) :
    ∃ c' ∈ (evidence options paths').cycles, c'.1 = c.1 ∧
      (Textual paths' → Untied paths' → cycleReport c'.2 = cycleReport c.2 ∨
        ShowsAdded paths paths' c.1 (cycleReport c'.2)) := by
  have hreported : c.1 ∈ reportedCycles options paths := List.mem_map_of_mem hc
  obtain ⟨hreportable, hsmallest⟩ := (mem_reportedCycles fun p hp => hk p (hsub p hp)).mp hreported
  have hreported' := (mem_reportedCycles hk).mpr ⟨hreportable.mono hsub, hsmallest⟩
  obtain ⟨c', hc', hclasses⟩ := List.mem_map.mp hreported'
  refine ⟨c', hc', hclasses, fun htextual huntied => ?_⟩
  have hspread' := mem_spreadCycles_of_evidence hc'
  by_cases hadded : ∃ w ∈ c'.2, (w.placed paths').1 ∉ paths
  · right
    obtain ⟨w, hw, hnew⟩ := hadded
    obtain ⟨e, he, hmem, hedge⟩ := exists_of_forall₂ (spreadCycles_chosen hspread').1 hw
    rw [hclasses] at he
    have hof := of_placed hmem
    exact ⟨w.placed paths', e, he, ⟨hof.mem, hof.nesting, hedge⟩, hnew, _, List.mem_map_of_mem hw,
      shows_diagnosis _ _ _, rfl⟩
  · left
    have hkeep : ∀ w ∈ c'.2, w.onOneOf paths paths' = true := by
      intro w hw
      by_contra hnot
      exact hadded ⟨w, hw, by simpa [Witness.onOneOf] using hnot⟩
    have hpath : ∀ v w : Witness, v.path = w.path → v.onOneOf paths paths' = w.onOneOf paths paths' := by
      intro v w hvw
      exact congrArg (fun i => decide ((prepare paths')[i]?.getD default ∈ paths)) hvw
    obtain ⟨_, hchosen⟩ := mem_spreadCycles_iff.mp (mem_spreadCycles_of_evidence hc)
    obtain ⟨_, hchosen'⟩ := mem_spreadCycles_iff.mp hspread'
    have htwo : 2 ≤ ((cycleEdges c'.1).map (witnessesOf (witnesses (prepare paths')))).length := by
      rw [List.length_map, length_cycleEdges, hclasses]
      have hthree := hreportable.three_le
      omega
    have hfiltered := spreadWitnesses_filter hpath htwo hchosen' hkeep
    rw [List.map_map, hclasses] at hfiltered
    have hrelated : List.Forall₂ (List.Forall₂ (Counterpart paths' paths))
        ((cycleEdges c.1).map (List.filter (Witness.onOneOf paths paths') ∘
          witnessesOf (witnesses (prepare paths'))))
        ((cycleEdges c.1).map (witnessesOf (witnesses (prepare paths)))) := by
      rw [List.forall₂_map_left_iff, List.forall₂_map_right_iff, List.forall₂_same]
      exact fun e _ => witnessesOf_counterparts htextual huntied hsub e
    obtain ⟨out, hout, hcounterparts⟩ :=
      spreadWitnesses_related Counterpart.path_eq_iff hrelated hfiltered
    obtain rfl : out = c.2 := Option.some.inj (hout.symm.trans hchosen)
    exact Counterpart.cycleReport_eq hcounterparts

/-- What the report on fewer paths says, the report on more paths says too. A double lock or a conflict of two
classes that is probable stays so. -/
inductive Kept (paths paths' : List LockPath) (r r' : Report) : Prop
  | doubleLock (k : DoubleLockKey) (h : ReportsDoubleLock paths k r) (h' : ReportsDoubleLock paths' k r')
      (hgrade : r.possibility = .probably → r'.possibility = .probably)
  | conflict (k : InversionKey) (h : ReportsConflict paths k r) (h' : ReportsConflict paths' k r')
      (hgrade : r.possibility = .probably → r'.possibility = .probably)
  | cycle (c : List AliasClass) (h : ReportsCycle paths c r) (h' : ReportsCycle paths' c r')
      (hshown : Textual paths' → Untied paths' → r' = r ∨ ShowsAdded paths paths' c r')

theorem doubleLock_kept {found found' : Detected} (h : Answered options paths found)
    (h' : Answered options paths' found') (hsub : ∀ p ∈ paths, p ∈ paths') {r : Report}
    (hr : r ∈ doubleLockReports (prepare paths)) :
    ∃ r' ∈ doubleLockReports (prepare paths'), Kept paths paths' r r' := by
  obtain ⟨keys, hkeys, _, hreports⟩ := h.doubleLockReports
  obtain ⟨keys', hkeys', _, hreports'⟩ := h'.doubleLockReports
  obtain ⟨k, hk, hsays⟩ := exists_of_forall₂ hreports.flip hr
  obtain ⟨p, n, hn⟩ := (hkeys k).mp hk
  obtain ⟨r', hr', hsays'⟩ := exists_of_forall₂ hreports' ((hkeys' k).mpr ⟨p, n, hn.mono hsub⟩)
  refine ⟨r', hr', .doubleLock k hsays hsays' fun hgrade => ?_⟩
  obtain ⟨p, n, hn, hblocks⟩ := hsays.graded.mp hgrade
  exact hsays'.graded.mpr ⟨p, n, hn.mono hsub, hblocks⟩

theorem conflict_kept {found found' : Detected} (h : Answered options paths found)
    (h' : Answered options paths' found') (hsub : ∀ p ∈ paths, p ∈ paths') {r : Report}
    (hr : r ∈ inversionReports (witnesses (prepare paths))) :
    ∃ r' ∈ inversionReports (witnesses (prepare paths')), Kept paths paths' r r' := by
  obtain ⟨keys, hkeys, _, hreports⟩ := h.inversionReports
  obtain ⟨keys', hkeys', _, hreports'⟩ := h'.inversionReports
  obtain ⟨k, hk, hsays⟩ := exists_of_forall₂ hreports.flip hr
  obtain ⟨hrelate, p, q, m, n, hc⟩ := (hkeys k).mp hk
  obtain ⟨r', hr', hsays'⟩ :=
    exists_of_forall₂ hreports' ((hkeys' k).mpr ⟨hrelate, p, q, m, n, hc.mono hsub⟩)
  refine ⟨r', hr', .conflict k hsays hsays' fun hgrade => ?_⟩
  obtain ⟨p, q, m, n, hc, hblock⟩ := hsays.graded.mp hgrade
  exact hsays'.graded.mpr ⟨p, q, m, n, hc.mono hsub, hblock⟩

/-- What detection reports on some paths it reports on more paths, wherever it answers on both, and it does
where all names are texts. -/
theorem more_paths_keep_findings (options : Options) {paths paths' : List LockPath}
    (hsub : ∀ p ∈ paths, p ∈ paths') :
    (Textual paths' →
      ∃ found found', detect options paths = .ok found ∧ detect options paths' = .ok found') ∧
    ∀ found found', detect options paths = .ok found → detect options paths' = .ok found' →
      ∀ r ∈ found.reports, ∃ r' ∈ found'.reports, Kept paths paths' r r' := by
  refine ⟨fun htextual => ?_, fun found found' hfound hfound' r hr => ?_⟩
  · obtain ⟨found, hfound⟩ := (htextual.mono hsub).detect options
    obtain ⟨found', hfound'⟩ := htextual.detect options
    exact ⟨found, found', hfound, hfound'⟩
  have h := answered hfound
  have h' := answered hfound'
  rw [h.reports, reports, Evidence.reports, List.mem_append, List.mem_append] at hr
  rw [h'.reports, reports, Evidence.reports]
  rcases hr with (hr | hr) | hr
  · obtain ⟨r', hr', hkept⟩ := doubleLock_kept h h' hsub hr
    exact ⟨r', List.mem_append_left _ (List.mem_append_left _ hr'), hkept⟩
  · obtain ⟨r', hr', hkept⟩ := conflict_kept h h' hsub hr
    exact ⟨r', List.mem_append_left _ (List.mem_append_right _ hr'), hkept⟩
  · obtain ⟨c, hc, rfl⟩ := List.mem_map.mp hr
    obtain ⟨c', hc', hclasses, hshown⟩ := cycle_kept h'.keyed hsub hc
    have hsays := reportsCycle_of_mem (mem_spreadCycles_of_evidence hc)
    have hsays' := reportsCycle_of_mem (mem_spreadCycles_of_evidence hc')
    rw [hclasses] at hsays'
    exact ⟨_, List.mem_append_right _ (List.mem_map_of_mem hc'), .cycle c.1 hsays hsays' hshown⟩

/-- The first path of the roundabout once more, one line above and with something on it that could not be
tracked. It stands before the other paths. -/
def untracked : LockPath :=
  { acquiring "A" "B" 0 with degraded := true }

theorem roundabout_subset : ∀ p ∈ roundabout, p ∈ untracked :: roundabout :=
  fun _ hp => List.mem_cons_of_mem _ hp

theorem textual_untracked : Textual (untracked :: roundabout) := by
  unfold Textual
  decide +kernel

theorem grades_roundabout : (reports {} roundabout).map Report.possibility = [.probably] := by
  have htextual : Textual roundabout := textual_untracked.mono roundabout_subset
  have hprepare := htextual.prepare_eq_self (by decide +kernel) (by decide +kernel)
  rw [reports_ring hprepare (by decide +kernel)]
  decide +kernel

/-- The path that is added takes the place of a witness, and the grade of the cycle falls. -/
theorem grades_untracked :
    (reports {} (untracked :: roundabout)).map Report.possibility = [.possibly] := by
  have hprepare := textual_untracked.prepare_eq_self (by decide +kernel) (by decide +kernel)
  rw [reports_ring hprepare (by decide +kernel)]
  decide +kernel

theorem more_paths_keep_findings_untracked :
    ∃ found found', detect {} roundabout = .ok found ∧ detect {} (untracked :: roundabout) = .ok found' ∧
      ∃ r ∈ found.reports, ∃ r' ∈ found'.reports, r.possibility = .probably ∧
        Kept roundabout (untracked :: roundabout) r r' := by
  obtain ⟨hanswers, hkept⟩ := more_paths_keep_findings {} roundabout_subset
  obtain ⟨found, found', hfound, hfound'⟩ := hanswers textual_untracked
  have hgrade : Possibility.probably ∈ found.reports.map Report.possibility := by
    rw [(answered hfound).reports, grades_roundabout]
    exact List.mem_singleton_self _
  obtain ⟨r, hr, hprobably⟩ := List.mem_map.mp hgrade
  obtain ⟨r', hr', hkept⟩ := hkept found found' hfound hfound' r hr
  exact ⟨found, found', hfound, hfound', r, hr, r', hr', hprobably, hkept⟩

/-- With one more path a cycle that was probable is so no longer. -/
theorem more_paths_weaken_cycle :
    (∀ p ∈ roundabout, p ∈ untracked :: roundabout) ∧
    ∃ found found', detect {} roundabout = .ok found ∧ detect {} (untracked :: roundabout) = .ok found' ∧
      found.reports.map Report.possibility = [.probably] ∧
      found'.reports.map Report.possibility = [.possibly] := by
  have htextual : Textual roundabout := textual_untracked.mono roundabout_subset
  obtain ⟨found, hfound⟩ := htextual.detect {}
  obtain ⟨found', hfound'⟩ := textual_untracked.detect {}
  refine ⟨roundabout_subset, found, found', hfound, hfound', ?_, ?_⟩
  · rw [(answered hfound).reports, grades_roundabout]
  · rw [(answered hfound').reports, grades_untracked]

end LockAudit.Detection
