import LockAudit.Proofs.Order.Related
import LockAudit.Proofs.Walk.PathLimit

/-! # Roots under a time budget

Collection explores the distinct roots in ascending order and leaves out those whose turn comes after the
deadline. What it returns are the complete paths of the others, one root after the other. Each path carries
its root, and paths compare by their roots first, so these lists together are in order as well.
-/

namespace LockAudit

/-! ### Times -/

theorem Binary64.lt_of_lt_of_le {x y z : Binary64} (hxy : x.lt y = true) (hyz : y.le z = true) :
    x.lt z = true := by
  cases x <;> cases y <;> cases z <;> simp_all [lt, le, eq]
  all_goals omega

theorem Number.lt_of_lt_of_le {x y z : Number} (hxy : x.lt y = true) (hyz : y.le z = true) :
    x.lt z = true :=
  Binary64.lt_of_lt_of_le hxy hyz

/-! ### The roots in order -/

theorem mem_eraseDupsBy_texts {names : List Name} (h : ∀ n ∈ names, n.isText = true) {n : Name} :
    n ∈ names.eraseDupsBy Name.same ↔ n ∈ names := by
  refine ⟨mem_of_mem_eraseDupsBy, fun hn => ?_⟩
  obtain ⟨m, hm, hcanonical⟩ := (eraseDupsBy_key Json.canonical names).1 n hn
  have hmn := Name.eq_of_same_texts (h m (mem_of_mem_eraseDupsBy hm)) (h n hn)
    (Name.same_iff.mpr hcanonical)
  exact hmn ▸ hm

theorem nodup_eraseDupsBy_same (names : List Name) : (names.eraseDupsBy Name.same).Nodup :=
  (eraseDupsBy_key Json.canonical names).2.of_map Json.canonical

namespace Walk

variable {g : CallGraph} {options : Options} {clock : Clock} {roots : List Name} {d : Option Number}

theorem sortedRoots_rising (h : ∀ r ∈ roots, r.isText = true) :
    (sortedRoots roots).Pairwise fun a b => compare a b = .lt := by
  have hplain : ∀ r ∈ roots.eraseDupsBy Name.same, r.isText = true := fun r hr =>
    h r (mem_of_mem_eraseDupsBy hr)
  rw [sortedRoots, orderOn_of_plain hplain]
  exact sortOn_texts_rising hplain (nodup_eraseDupsBy_same roots)

theorem mem_sortedRoots_iff (h : ∀ r ∈ roots, r.isText = true) {r : Name} :
    r ∈ sortedRoots roots ↔ r ∈ roots :=
  (orderOn_perm id _).mem_iff.trans (mem_eraseDupsBy_texts h)

theorem checkRoots_eq_missing (h : ∀ r ∈ roots, r.isText = true)
    (hmissing : ∃ r ∈ roots, g.contains r = false) :
    ∃ names : List String, names.map Json.str = (sortedRoots roots).filter (fun r => !g.contains r) ∧
      checkRoots g roots = .error (.missingRoots names) := by
  have htexts : ∀ r ∈ (sortedRoots roots).filter (fun r => !g.contains r), r.isText = true :=
    fun r hr => h r (mem_sortedRoots (List.mem_filter.mp hr).1)
  obtain ⟨names, hnames⟩ := Name.exists_eq_map_str htexts
  have hne : (names.map Json.str).isEmpty = false := by
    obtain ⟨r, hr, hr'⟩ := hmissing
    have hmem : r ∈ (sortedRoots roots).filter (fun r => !g.contains r) :=
      List.mem_filter.mpr ⟨(mem_sortedRoots_iff h).mpr hr, by rw [hr']; rfl⟩
    rw [← hnames]
    exact List.isEmpty_eq_false_iff.mpr (List.ne_nil_of_mem hmem)
  refine ⟨names, hnames.symm, ?_⟩
  unfold checkRoots
  rw [not_stray_of_texts h, hnames]
  simp only [Bool.false_eq_true, if_false, hne, Name.texts?_map_str]

/-! ### The roots that start -/

def InTime (options : Options) (clock : Clock) (position : Nat) : Prop :=
  ∀ budget ∈ options.timeBudget, ∀ t ∈ (clock.reading 0).add? budget,
    t.lt (clock.reading (position + 1)) = false

structure KeepsInTime (options : Options) (clock : Clock) (roots kept : List Name) : Prop where
  sublist : kept.Sublist roots
  mem_iff : ∀ (i : Nat) (r : Name), roots[i]? = some r → (r ∈ kept ↔ InTime options clock i)

def HasDeadline (options : Options) (clock : Clock) : Prop :=
  ∀ budget ∈ options.timeBudget, ((clock.reading 0).add? budget).isSome = true

theorem HasDeadline.exists_deadline (h : HasDeadline options clock) :
    ∃ d, deadline options clock = .ok d ∧ ∀ i, isLate d clock i = false ↔ InTime options clock i := by
  unfold HasDeadline at h
  unfold deadline InTime
  cases hbudget : options.timeBudget with
  | none => exact ⟨none, rfl, fun i => by simp [isLate]⟩
  | some budget =>
    obtain ⟨t, ht⟩ := Option.isSome_iff_exists.mp (h budget hbudget)
    simp only [ht]
    exact ⟨some t, rfl, fun i => by simp [isLate, ht]⟩

theorem deadline_eq_overflow (h : ¬HasDeadline options clock) :
    deadline options clock = .error .timeOverflow := by
  unfold deadline
  unfold HasDeadline at h
  cases hbudget : options.timeBudget with
  | none => simp [hbudget] at h
  | some budget =>
    have hnone : (clock.reading 0).add? budget = none := by simpa [hbudget] using h
    simp only [hnone]

theorem startedRoots_sublist (d : Option Number) (clock : Clock) (roots : List Name) :
    (startedRoots d clock roots).Sublist roots := by
  have hsub := (List.filter_sublist (p := fun r : Name × Nat => !isLate d clock r.2)
    (l := roots.zipIdx)).map Prod.fst
  rwa [List.zipIdx_map_fst] at hsub

theorem mem_startedRoots_iff (hn : roots.Nodup) {i : Nat} {r : Name} (hr : roots[i]? = some r) :
    r ∈ startedRoots d clock roots ↔ isLate d clock i = false := by
  simp only [startedRoots, List.mem_map, List.mem_filter, List.mem_zipIdx_iff_getElem?, Bool.not_eq_true',
    Prod.exists, exists_and_right, exists_eq_right]
  constructor
  · rintro ⟨j, hj, hlate⟩
    have hbound := (List.getElem?_eq_some_iff.mp hr).1
    obtain rfl := (List.getElem?_inj hbound hn).mp (hr.trans hj.symm)
    exact hlate
  · exact fun hlate => ⟨i, hr, hlate⟩

theorem filter_zipIdx_of_late {late : Nat → Bool} (h : ∀ i, late i = true → late (i + 1) = true)
    (roots : List Name) {k : Nat} (hk : late k = true) :
    (roots.zipIdx k).filter (fun r => !late r.2) = [] := by
  induction roots generalizing k with
  | nil => rfl
  | cons r roots ih =>
    rw [List.zipIdx_cons, List.filter_cons_of_neg (by simp [hk])]
    exact ih (h k hk)

theorem map_filter_zipIdx_first {late : Nat → Bool} (h : ∀ i, late i = true → late (i + 1) = true)
    (roots : List Name) (k : Nat) :
    ((roots.zipIdx k).filter fun r => !late r.2).map Prod.fst <+: roots := by
  induction roots generalizing k with
  | nil => exact List.nil_prefix
  | cons r roots ih =>
    cases hk : late k with
    | false =>
      rw [List.zipIdx_cons, List.filter_cons_of_pos (by simp [hk]), List.map_cons, List.prefix_cons_inj]
      exact ih (k + 1)
    | true =>
      rw [filter_zipIdx_of_late h _ hk]
      exact List.nil_prefix

theorem isLate_succ (hclock : ∀ i, (clock.reading i).le (clock.reading (i + 1)) = true) (i : Nat)
    (h : isLate d clock i = true) : isLate d clock (i + 1) = true := by
  cases d with
  | none => cases h
  | some t => exact Number.lt_of_lt_of_le h (hclock (i + 1))

/-! ### The paths of the roots that start -/

theorem exists_mapM_map_iff {ε α β γ : Type} {f : α → Except ε β} {view : β → γ} {xs : List α}
    {zs : List γ} : (∃ ys, xs.mapM f = .ok ys ∧ ys.map view = zs) ↔
      List.Forall₂ (fun x z => (f x).map view = .ok z) xs zs := by
  induction xs generalizing zs with
  | nil =>
    constructor
    · rintro ⟨ys, h, rfl⟩
      cases h
      exact .nil
    · intro h
      cases h
      exact ⟨[], rfl, rfl⟩
  | cons x xs ih =>
    constructor
    · rintro ⟨ys, h, rfl⟩
      rw [List.mapM_cons] at h
      obtain ⟨y, hy, h⟩ := except_bind_eq_ok h
      obtain ⟨ys', hys, h⟩ := except_bind_eq_ok h
      cases h
      exact .cons (by rw [hy]; rfl) (ih.mp ⟨ys', hys, rfl⟩)
    · intro h
      cases h with
      | cons hx hxs =>
        obtain ⟨y, hy, rfl⟩ := except_map_eq_ok hx
        obtain ⟨ys, hys, rfl⟩ := ih.mpr hxs
        exact ⟨y :: ys, by rw [List.mapM_cons, hy, hys]; rfl, rfl⟩

/-- Collection returns exactly if every root that starts has its paths, and returns these. -/
theorem collect_paths_iff (hroots : checkRoots g roots = .ok ()) (hd : deadline options clock = .ok d)
    {fuel : Nat} {paths : List LockPath} :
    (∃ c, collect g options fuel clock roots = .ok c ∧ c.paths = paths) ↔
      ∃ lists, List.Forall₂ (fun r ps => pathsFrom g options fuel r = .ok ps)
        (startedRoots d clock (sortedRoots roots)) lists ∧ paths = lists.flatten := by
  unfold pathsFrom
  simp only [← exists_mapM_map_iff]
  unfold collect
  rw [hroots, hd]
  simp only [except_ok_bind]
  cases (startedRoots d clock (sortedRoots roots)).mapM (explore g options fuel) with
  | error fault =>
    constructor
    · rintro ⟨c, hc, _⟩
      cases hc
    · rintro ⟨lists, ⟨es, hes, _⟩, _⟩
      cases hes
  | ok es =>
    constructor
    · rintro ⟨c, hc, rfl⟩
      cases hc
      exact ⟨_, ⟨es, rfl, rfl⟩, List.flatMap_def⟩
    · rintro ⟨lists, ⟨es', hes, rfl⟩, rfl⟩
      cases hes
      exact ⟨_, rfl, List.flatMap_def⟩

def Precedes (p q : LockPath) : Prop :=
  (compare p q).isLE = true ∧ p.canonical ≠ q.canonical

theorem pathsFrom_precede {fuel : Nat} {root : Name} {paths : List LockPath}
    (h : pathsFrom g options fuel root = .ok paths) (htexts : ∀ i ∈ g.instances, i.id.isText = true) :
    paths.Pairwise Precedes := by
  refine ((pathsFrom_ascending h htexts).and (pathsFrom_differ h)).imp ?_
  rintro p q ⟨hle, hdiffer⟩
  exact ⟨hle, fun he => hdiffer (congrArg LockPath.events he)⟩

theorem pathsFrom_root {fuel : Nat} {root : Name} {paths : List LockPath}
    (h : pathsFrom g options fuel root = .ok paths) : ∀ p ∈ paths, p.root = root := by
  obtain ⟨e, he, rfl⟩ := except_map_eq_ok h
  intro p hp
  exact (explore_recorded he p (LockPath.mem_sorted.mp hp)).1

theorem precedes_of_root {p q : LockPath} (h : compare p.root q.root = .lt)
    (hp : p.root.isText = true) (hq : q.root.isText = true) : Precedes p q := by
  constructor
  · have hcompare : compare p q = .lt := by
      change compareLex (compareOn LockPath.root) _ p q = .lt
      simp [compareLex, compareOn, h]
    rw [hcompare]
    rfl
  · intro he
    have hroot : p.root.canonical = q.root.canonical := congrArg LockPath.root he
    rw [Name.canonical_of_isText hp, Name.canonical_of_isText hq] at hroot
    exact Name.ne_of_compare_lt h hroot

/-- Lists of paths in order, one for each of rising roots, are in order together. -/
theorem flatten_precedes {fuel : Nat} {kept : List Name} {lists : List (List LockPath)}
    (hrising : kept.Pairwise fun a b => compare a b = .lt) (hkept : ∀ r ∈ kept, r.isText = true)
    (htexts : ∀ i ∈ g.instances, i.id.isText = true)
    (h : List.Forall₂ (fun r ps => pathsFrom g options fuel r = .ok ps) kept lists) :
    lists.flatten.Pairwise Precedes := by
  induction h with
  | nil => exact .nil
  | @cons r ps kept lists hr hrest ih =>
    obtain ⟨hfirst, hrising⟩ := List.pairwise_cons.mp hrising
    obtain ⟨hrtext, hkept⟩ := List.forall_mem_cons.mp hkept
    rw [List.flatten_cons, List.pairwise_append]
    refine ⟨pathsFrom_precede hr htexts, ih hrising hkept, ?_⟩
    -- a later path is one of a later root
    intro p hp q hq
    obtain ⟨qs, hqs, hq⟩ := List.mem_flatten.mp hq
    obtain ⟨r', hr', hpaths⟩ := forall₂_exists_left hrest hqs
    have hproot := pathsFrom_root hr p hp
    have hqroot := pathsFrom_root hpaths q hq
    refine precedes_of_root ?_ ?_ ?_
    · rw [hproot, hqroot]
      exact hfirst r' hr'
    · rw [hproot]
      exact hrtext
    · rw [hqroot]
      exact hkept r' hr'

/-! ### Collection -/

/-- The roots, named by texts, are taken once each and in ascending order. If all of them are nodes and there
is no time budget that is too large to be added to the first reading, then collection returns the paths of
those roots whose turn comes in time, complete and one root after the other, if each of these has its paths;
there is no other result. The paths are in their stable order and differ from each other, and with a clock
that does not run back, the roots that are kept are the first ones. Roots that are no nodes are named in
order, whatever their paths would be. -/
theorem budgeted_collection (g : CallGraph) (options : Options) (clock : Clock) (roots : List Name)
    (hnodes : ∀ i ∈ g.instances, i.id.isText = true) (hroots : ∀ r ∈ roots, r.isText = true) :
    (sortedRoots roots).Pairwise (fun a b => compare a b = .lt) ∧
    (∀ r, r ∈ sortedRoots roots ↔ r ∈ roots) ∧
    ((∀ r ∈ roots, g.contains r = true) → HasDeadline options clock →
      ∃ kept, KeepsInTime options clock (sortedRoots roots) kept ∧
        (∀ fuel paths, (∃ c, collect g options fuel clock roots = .ok c ∧ c.paths = paths) ↔
          ∃ lists, List.Forall₂ (fun r ps => pathsFrom g options fuel r = .ok ps) kept lists ∧
            paths = lists.flatten) ∧
        (∀ fuel c, collect g options fuel clock roots = .ok c →
          c.paths.Pairwise (fun p q => (compare p q).isLE = true) ∧
          (c.paths.map LockPath.canonical).Nodup) ∧
        ((∀ i, (clock.reading i).le (clock.reading (i + 1)) = true) → kept <+: sortedRoots roots)) ∧
    ((∀ r ∈ roots, g.contains r = true) → ¬HasDeadline options clock →
      ∀ fuel, collect g options fuel clock roots = .error .timeOverflow) ∧
    ((∃ r ∈ roots, g.contains r = false) →
      ∃ names : List String,
        names.map Json.str = (sortedRoots roots).filter (fun r => !g.contains r) ∧
        (CollectError.missingRoots names).message =
          "analysis roots not in call graph: " ++ ", ".intercalate names ∧
        ∀ fuel, collect g options fuel clock roots = .error (.missingRoots names)) := by
  have hrising := sortedRoots_rising hroots
  refine ⟨hrising, fun r => mem_sortedRoots_iff hroots, ?_, ?_, ?_⟩
  · intro hcontains hdeadline
    obtain ⟨d, hd, hlate⟩ := hdeadline.exists_deadline
    have hcheck := checkRoots_eq_ok hroots hcontains
    have hsub := startedRoots_sublist d clock (sortedRoots roots)
    have hnodup : (sortedRoots roots).Nodup := hrising.imp Name.ne_of_compare_lt
    refine ⟨startedRoots d clock (sortedRoots roots), ⟨hsub, ?_⟩, ?_, ?_, ?_⟩
    · exact fun i r hr => (mem_startedRoots_iff hnodup hr).trans (hlate i)
    · exact fun fuel paths => collect_paths_iff hcheck hd
    · intro fuel c hc
      obtain ⟨lists, hlists, hpaths⟩ := (collect_paths_iff hcheck hd).mp ⟨c, hc, rfl⟩
      have hordered : c.paths.Pairwise Precedes := by
        rw [hpaths]
        refine flatten_precedes (hrising.sublist hsub) ?_ hnodes hlists
        exact fun r hr => hroots r (mem_sortedRoots (hsub.subset hr))
      exact ⟨hordered.imp And.left, List.pairwise_map.mpr (hordered.imp And.right)⟩
    · exact fun hclock => map_filter_zipIdx_first (isLate_succ hclock) _ 0
  · intro hcontains hdeadline fuel
    unfold collect
    rw [checkRoots_eq_ok hroots hcontains, deadline_eq_overflow hdeadline]
    rfl
  · intro hmissing
    obtain ⟨names, hnames, hcheck⟩ := checkRoots_eq_missing hroots hmissing
    refine ⟨names, hnames, rfl, fun fuel => ?_⟩
    unfold collect
    rw [hcheck]
    rfl

/-- With a budget of five seconds, `main` is started after one second and `open` would be after nine. -/
theorem budgeted_collection_handover :
    ∃ kept c p, KeepsInTime { timeBudget := some (.whole 5) } ⟨[.whole 0, .whole 1, .whole 9]⟩
        (sortedRoots [.str "open", .str "main", .str "open"]) kept ∧
      kept = [.str "main"] ∧ kept <+: sortedRoots [.str "open", .str "main", .str "open"] ∧
      pathsFrom handover { timeBudget := some (.whole 5) } 9 (.str "main") = .ok [p] ∧
      collect handover { timeBudget := some (.whole 5) } 9 ⟨[.whole 0, .whole 1, .whole 9]⟩
        [.str "open", .str "main", .str "open"] = .ok c ∧ c.paths = [p] := by
  let options : Options := { timeBudget := some (.whole 5) }
  let clock : Clock := ⟨[.whole 0, .whole 1, .whole 9]⟩
  obtain ⟨hrising, hmem, hreturns, _⟩ := budgeted_collection handover options clock
    [.str "open", .str "main", .str "open"] (by decide) (by decide)
  have hsorted : sortedRoots [.str "open", .str "main", .str "open"] = [.str "main", .str "open"] := by
    refine eq_of_rising id hrising (by decide) fun r => ?_
    rw [hmem]
    simp only [List.mem_cons, List.not_mem_nil, or_false]
    tauto
  have hdeadline : HasDeadline options clock := by
    intro budget hbudget
    cases hbudget
    rfl
  have hclock : ∀ i, (clock.reading i).le (clock.reading (i + 1)) = true := by
    intro i
    match i with
    | 0 | 1 | 2 => decide +kernel
    | i + 3 => exact (by decide +kernel : (Number.whole 9).le (.whole 9) = true)
  obtain ⟨kept, hkeeps, hiff, _, hfirst⟩ := hreturns (by decide) hdeadline
  have hmain : .str "main" ∈ kept := by
    refine (hkeeps.mem_iff 0 _ (by rw [hsorted]; rfl)).mpr fun budget hbudget t ht => ?_
    cases hbudget
    cases ht
    decide +kernel
  have hopen : .str "open" ∉ kept := by
    intro hkept
    have hintime := (hkeeps.mem_iff 1 _ (by rw [hsorted]; rfl)).mp hkept (.whole 5) rfl (.whole 5) rfl
    exact absurd hintime (by decide +kernel)
  have hone : kept = [.str "main"] := by
    refine eq_of_rising id (hrising.sublist hkeeps.sublist) (by decide) fun r => ⟨fun hr => ?_, fun hr => ?_⟩
    · have hroot := hkeeps.sublist.subset hr
      rw [hsorted] at hroot
      rcases List.mem_pair.mp hroot with rfl | rfl
      · exact List.mem_cons_self
      · exact absurd hr hopen
    · obtain rfl := List.mem_singleton.mp hr
      exact hmain
  have hlength : (pathsFrom handover options 9 (.str "main")).map List.length = .ok 1 := by
    decide +kernel
  obtain ⟨paths, hpaths, hlength⟩ := except_map_eq_ok hlength
  obtain ⟨p, rfl⟩ := List.length_eq_one_iff.mp hlength
  obtain ⟨c, hc, hcpaths⟩ := (hiff 9 [p]).mpr ⟨[[p]], hone ▸ .cons hpaths .nil, rfl⟩
  exact ⟨kept, c, p, hkeeps, hone, hfirst hclock, hpaths, hc, hcpaths⟩

def vastBudget : Settings :=
  { timeBudget := some (some (.whole (Int.ofNat (Nat.pow 10 400)))) }

/-- The settings pass their checks and the root has its path, but there is no deadline. -/
theorem vastBudget_not_collected :
    ∃ options p, vastBudget.check = .ok options ∧ options.workers = 1 ∧
      (jumping [.int 1]).contains (.str "main") = true ∧
      pathsFrom (jumping [.int 1]) options 9 (.str "main") = .ok [p] ∧
      (collect (jumping [.int 1]) options 9 ⟨[.real .zero]⟩ [.str "main"]).map Collection.paths =
        .error .timeOverflow := by
  have h : vastBudget.check.map (fun o => (o.workers,
      (pathsFrom (jumping [.int 1]) o 9 (.str "main")).map List.length,
      (collect (jumping [.int 1]) o 9 ⟨[.real .zero]⟩ [.str "main"]).map Collection.paths)) =
      .ok (1, .ok 1, .error .timeOverflow) := by
    decide +kernel
  obtain ⟨options, hoptions, h⟩ := except_map_eq_ok h
  obtain ⟨hworkers, h⟩ := Prod.mk.inj h
  obtain ⟨hpaths, hcollect⟩ := Prod.mk.inj h
  obtain ⟨paths, hpaths, hlength⟩ := except_map_eq_ok hpaths
  obtain ⟨p, rfl⟩ := List.length_eq_one_iff.mp hlength
  exact ⟨options, p, hoptions, hworkers, by decide +kernel, hpaths, hcollect⟩

end Walk

end LockAudit
