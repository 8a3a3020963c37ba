import LockAudit.Proofs.Detection.CycleSearch

/-! # Witnesses from more than one path

A cycle is reported if its edges have witnesses that are not all on one path. The witnesses that are shown
are one for each edge, and two of them lie on different paths.
-/

namespace LockAudit.Detection

def LeadsItsList (c : Witness × List Witness) : Prop :=
  c.2.head? = some c.1

theorem mapM_head?_eq_some {edges : List (List Witness)} {chosen : List (Witness × List Witness)}
    (h : edges.mapM (fun ws => ws.head?.map fun w => (w, ws)) = some chosen) :
    chosen.map Prod.snd = edges ∧ ∀ c ∈ chosen, LeadsItsList c := by
  induction edges generalizing chosen with
  | nil =>
    cases h
    exact ⟨rfl, by simp⟩
  | cons ws edges ih =>
    simp only [List.mapM_cons, Option.bind_eq_bind, Option.bind_eq_some_iff, Option.pure_def,
      Option.some.injEq, Option.map_eq_some_iff] at h
    obtain ⟨_, ⟨w, hw, rfl⟩, rest, hr, rfl⟩ := h
    obtain ⟨hmap, hlead⟩ := ih hr
    exact ⟨by rw [List.map_cons, hmap], List.forall_mem_cons.mpr ⟨hw, hlead⟩⟩

theorem exists_mapM_head? {edges : List (List Witness)} (h : ∀ ws ∈ edges, ws ≠ []) :
    ∃ chosen, edges.mapM (fun ws => ws.head?.map fun w => (w, ws)) = some chosen := by
  induction edges with
  | nil => exact ⟨[], rfl⟩
  | cons ws edges ih =>
    obtain ⟨hne, hrest⟩ := List.forall_mem_cons.mp h
    obtain ⟨w, ws, rfl⟩ := List.exists_cons_of_ne_nil hne
    obtain ⟨chosen, hchosen⟩ := ih hrest
    exact ⟨(w, w :: ws) :: chosen, by simp [hchosen]⟩

theorem forall₂_fst_mem {chosen : List (Witness × List Witness)} (h : ∀ c ∈ chosen, LeadsItsList c) :
    List.Forall₂ (· ∈ ·) (chosen.map Prod.fst) (chosen.map Prod.snd) := by
  rw [List.forall₂_map_left_iff, List.forall₂_map_right_iff, List.forall₂_same]
  exact fun c hc => List.mem_of_head? (h c hc)

/-- Where all chosen witnesses are on one path, the exchange brings in a second one and, if there is more
than one edge, leaves the first. -/
theorem spreadFrom_eq_some {path : Nat} {chosen : List (Witness × List Witness)} {out : List Witness}
    (hlead : ∀ c ∈ chosen, LeadsItsList c) (hpath : ∀ c ∈ chosen, c.1.path = path)
    (h : spreadFrom path chosen = some out) :
    List.Forall₂ (· ∈ ·) out (chosen.map Prod.snd) ∧ (∃ w ∈ out, w.path ≠ path) ∧
      (2 ≤ chosen.length → ∃ w ∈ out, w.path = path) := by
  induction chosen generalizing out with
  | nil => cases h
  | cons c rest ih =>
    obtain ⟨first, candidates⟩ := c
    obtain ⟨hfirst, hrest⟩ := List.forall_mem_cons.mp hlead
    obtain ⟨hfirstPath, hrestPath⟩ := List.forall_mem_cons.mp hpath
    simp only [spreadFrom] at h
    split at h
    · rename_i w hw
      cases h
      refine ⟨.cons (List.mem_of_find?_eq_some hw) (forall₂_fst_mem hrest), ⟨w, List.mem_cons_self, ?_⟩, ?_⟩
      · simpa using List.find?_some hw
      · intro htwo
        obtain ⟨c, rest, rfl⟩ := List.exists_cons_of_length_pos (Nat.le_of_succ_le_succ htwo)
        exact ⟨c.1, by simp, hrestPath c List.mem_cons_self⟩
    · obtain ⟨out', ho, rfl⟩ := Option.map_eq_some_iff.mp h
      obtain ⟨hmem, ⟨w, hw, hne⟩, _⟩ := ih hrest hrestPath ho
      exact ⟨.cons (List.mem_of_head? hfirst) hmem, ⟨w, List.mem_cons_of_mem _ hw, hne⟩,
        fun _ => ⟨first, List.mem_cons_self, hfirstPath⟩⟩

theorem exists_spreadFrom {path : Nat} {chosen : List (Witness × List Witness)}
    (h : ∃ c ∈ chosen, ∃ w ∈ c.2, w.path ≠ path) : ∃ out, spreadFrom path chosen = some out := by
  induction chosen with
  | nil =>
    obtain ⟨c, hc, _⟩ := h
    cases hc
  | cons c rest ih =>
    obtain ⟨first, candidates⟩ := c
    simp only [spreadFrom]
    split
    · exact ⟨_, rfl⟩
    · rename_i hnone
      obtain ⟨c, hc, w, hw, hne⟩ := h
      rcases List.mem_cons.mp hc with rfl | hc
      · have hfalse := List.find?_eq_none.mp hnone w hw
        simp [hne] at hfalse
      · obtain ⟨out, hout⟩ := ih ⟨c, hc, w, hw, hne⟩
        exact ⟨first :: out, by rw [hout]; rfl⟩

def OnSeveralPaths (ws : List Witness) : Prop :=
  ∃ v ∈ ws, ∃ w ∈ ws, v.path ≠ w.path

/-- The witnesses that are chosen are candidates of their edges, from at least two paths. -/
theorem spreadWitnesses_eq_some {edges : List (List Witness)} {chosen : List Witness}
    (htwo : 2 ≤ edges.length) (h : spreadWitnesses edges = some chosen) :
    List.Forall₂ (· ∈ ·) chosen edges ∧ OnSeveralPaths chosen := by
  unfold spreadWitnesses at h
  split at h
  · cases h
  · cases h
  · rename_i w ws rest hm
    obtain ⟨hmap, hlead⟩ := mapM_head?_eq_some hm
    dsimp only at h
    split at h
    · rename_i hany
      cases h
      obtain ⟨c, hc, hne⟩ := List.any_eq_true.mp hany
      refine ⟨hmap ▸ forall₂_fst_mem hlead, c.1, ?_, w, by simp, bne_iff_ne.mp hne⟩
      exact List.mem_cons_of_mem _ (List.mem_map_of_mem hc)
    · rename_i hany
      have hpath : ∀ c ∈ (w, ws) :: rest, c.1.path = w.path := by
        refine List.forall_mem_cons.mpr ⟨rfl, ?_⟩
        simpa using hany
      obtain ⟨hmem, ⟨v, hv, hne⟩, hstays⟩ := spreadFrom_eq_some hlead hpath h
      have hlength : 2 ≤ ((w, ws) :: rest).length := by
        rwa [← List.length_map (f := Prod.snd), hmap]
      obtain ⟨u, hu, hpu⟩ := hstays hlength
      exact ⟨hmap ▸ hmem, v, hv, u, hu, by rwa [hpu]⟩

/-- There is a choice as soon as the candidates come from more than one path. -/
theorem exists_spreadWitnesses {edges : List (List Witness)} (hne : ∀ ws ∈ edges, ws ≠ [])
    (h : OnSeveralPaths edges.flatten) : ∃ chosen, spreadWitnesses edges = some chosen := by
  obtain ⟨heads, hheads⟩ := exists_mapM_head? hne
  obtain ⟨hmap, _⟩ := mapM_head?_eq_some hheads
  obtain ⟨u, hu, v, hv, huv⟩ := h
  have hcandidate : ∀ x ∈ edges.flatten, ∃ c ∈ heads, x ∈ c.2 := by
    intro x hx
    obtain ⟨ws, hws, hxw⟩ := List.mem_flatten.mp hx
    rw [← hmap] at hws
    obtain ⟨c, hc, rfl⟩ := List.mem_map.mp hws
    exact ⟨c, hc, hxw⟩
  unfold spreadWitnesses
  rw [hheads]
  cases heads with
  | nil =>
    obtain ⟨_, hc, _⟩ := hcandidate u hu
    cases hc
  | cons first rest =>
    obtain ⟨w, ws⟩ := first
    dsimp only
    split
    · exact ⟨_, rfl⟩
    · -- Not both of the two witnesses are on the path of the first one that is chosen.
      refine exists_spreadFrom ?_
      by_cases hpath : u.path = w.path
      · obtain ⟨c, hc, hvc⟩ := hcandidate v hv
        exact ⟨c, hc, v, hvc, fun he => huv (hpath.trans he.symm)⟩
      · obtain ⟨c, hc, huc⟩ := hcandidate u hu
        exact ⟨c, hc, u, huc, hpath⟩

/-! ### Reports of cycles -/

variable {ws : List Witness} {bound : Nat}

def witnessesOf (ws : List Witness) (e : AliasClass × AliasClass) : List Witness :=
  ws.filter fun w => w.edge = e

theorem mem_spreadCycles_iff {c : List AliasClass × List Witness} :
    c ∈ spreadCycles ws bound ↔ c.1 ∈ cycles (orderEdges ws) bound ∧
      spreadWitnesses ((cycleEdges c.1).map (witnessesOf ws)) = some c.2 := by
  have hknown : (witnessIndex ws).withKey = witnessesOf ws := funext (withKey_witnessIndex ws)
  simp only [spreadCycles, List.mem_filterMap, Option.map_eq_some_iff, hknown]
  constructor
  · rintro ⟨cycle, hcycle, chosen, hchosen, rfl⟩
    exact ⟨hcycle, hchosen⟩
  · rintro ⟨hcycle, hchosen⟩
    exact ⟨c.1, hcycle, c.2, hchosen, rfl⟩

theorem length_cycleEdges (c : List AliasClass) : (cycleEdges c).length = c.length := by
  rw [← List.length_map (f := Prod.fst), map_fst_cycleEdges]

theorem spreadCycles_chosen {c : List AliasClass × List Witness} (h : c ∈ spreadCycles ws bound) :
    List.Forall₂ (fun w e => w ∈ ws ∧ w.edge = e) c.2 (cycleEdges c.1) ∧ OnSeveralPaths c.2 ∧
      3 ≤ c.2.length := by
  obtain ⟨hcycle, hchosen⟩ := mem_spreadCycles_iff.mp h
  have hthree : 3 ≤ c.1.length := three_le_of_mem_cycles hcycle
  have hlength : ((cycleEdges c.1).map (witnessesOf ws)).length = c.1.length := by
    rw [List.length_map, length_cycleEdges]
  obtain ⟨hmem, hseveral⟩ := spreadWitnesses_eq_some (by omega) hchosen
  refine ⟨?_, hseveral, ?_⟩
  · refine (List.forall₂_map_right_iff.mp hmem).imp ?_
    intro w e hw
    obtain ⟨hw, he⟩ := List.mem_filter.mp hw
    exact ⟨hw, of_decide_eq_true he⟩
  · rw [hmem.length_eq, hlength]
    exact hthree

end LockAudit.Detection
