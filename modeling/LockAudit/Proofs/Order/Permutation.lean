import LockAudit.Path

/-! # Putting in order only moves values

Whatever the answers to its questions are, an arrangement that comes to an end has exactly the values it
was given. No order law is assumed.
-/

namespace LockAudit

namespace Arrange

variable {α : Type} {isBefore? : Question α}

/-! ### Runs -/

theorem frontRun_perm {xs run rest : List α} (h : frontRun isBefore? xs = some (run, rest)) :
    (run ++ rest).Perm xs := by
  match xs with
  | [] => cases h; simp
  | [a] => cases h; simp
  | a :: b :: xs =>
    simp only [frontRun, Option.bind_eq_bind, Option.bind_eq_some_iff, Option.pure_def,
      Option.some.injEq, Prod.mk.injEq] at h
    obtain ⟨falling, _, further, _, hrun, rfl⟩ := h
    have hr : run.Perm (a :: b :: xs.take further) := by
      subst hrun
      split
      · exact List.reverse_perm _
      · exact List.Perm.refl _
    have hs := hr.append_right (xs.drop further)
    simpa using hs

theorem frontRun_length {x : α} {xs run rest : List α}
    (h : frontRun isBefore? (x :: xs) = some (run, rest)) : rest.length ≤ xs.length := by
  match xs with
  | [] => cases h; simp
  | y :: xs =>
    simp only [frontRun, Option.bind_eq_bind, Option.bind_eq_some_iff, Option.pure_def,
      Option.some.injEq, Prod.mk.injEq] at h
    obtain ⟨_, _, further, _, _, rfl⟩ := h
    simp only [List.length_drop, List.length_cons]
    omega

theorem insert_perm {run ys : List α} {x : α} (h : insert isBefore? run x = some ys) :
    ys.Perm (x :: run) := by
  simp only [insert, Option.bind_eq_bind, Option.bind_eq_some_iff, Option.pure_def,
    Option.some.injEq] at h
  obtain ⟨place, _, rfl⟩ := h
  have hm : (run.take place ++ x :: run.drop place).Perm (x :: (run.take place ++ run.drop place)) :=
    List.perm_middle
  simpa using hm

theorem foldlM_insert_perm {xs run ys : List α} (h : xs.foldlM (insert isBefore?) run = some ys) :
    ys.Perm (run ++ xs) := by
  induction xs generalizing run with
  | nil => cases h; simp
  | cons x xs ih =>
    simp only [List.foldlM_cons, Option.bind_eq_bind, Option.bind_eq_some_iff] at h
    obtain ⟨mid, hm, hy⟩ := h
    have hx : (mid ++ xs).Perm (x :: run ++ xs) := (insert_perm hm).append_right xs
    exact (ih hy).trans (hx.trans List.perm_middle.symm)

theorem nextRun_perm {least : Nat} {xs run rest : List α}
    (h : nextRun isBefore? least xs = some (run, rest)) : (run ++ rest).Perm xs := by
  simp only [nextRun, Option.bind_eq_bind, Option.bind_eq_some_iff, Option.pure_def,
    Option.some.injEq, Prod.mk.injEq, Prod.exists] at h
  obtain ⟨front, back, hf, filled, hm, rfl, rfl⟩ := h
  have hfill := (foldlM_insert_perm hm).append_right (back.drop (least - front.length))
  rw [List.append_assoc, List.take_append_drop] at hfill
  exact hfill.trans (frontRun_perm hf)

theorem nextRun_length {least : Nat} {x : α} {xs run rest : List α}
    (h : nextRun isBefore? least (x :: xs) = some (run, rest)) : rest.length ≤ xs.length := by
  simp only [nextRun, Option.bind_eq_bind, Option.bind_eq_some_iff, Option.pure_def,
    Option.some.injEq, Prod.mk.injEq, Prod.exists] at h
  obtain ⟨front, back, hf, filled, _, _, rfl⟩ := h
  have hl := frontRun_length hf
  simp only [List.length_drop]
  omega

/-! ### Merging two runs -/

namespace Merging

def content (m : Merging α) : List α :=
  m.merged ++ (m.keep ++ m.pull)

theorem moveKeep_content (m : Merging α) (count : Nat) : (m.moveKeep count).content.Perm m.content := by
  have hr : ((m.keep.take count).reverse ++ m.merged).Perm (m.merged ++ m.keep.take count) :=
    ((List.reverse_perm _).append_right _).trans List.perm_append_comm
  have hs := hr.append_right (m.keep.drop count ++ m.pull)
  rw [List.append_assoc m.merged, ← List.append_assoc (m.keep.take count),
    List.take_append_drop] at hs
  exact hs

theorem movePull_content (m : Merging α) (count : Nat) : (m.movePull count).content.Perm m.content := by
  have hr : ((m.pull.take count).reverse ++ m.merged).Perm (m.merged ++ m.pull.take count) :=
    ((List.reverse_perm _).append_right _).trans List.perm_append_comm
  have hs := hr.append_right (m.keep ++ m.pull.drop count)
  have hc : (m.pull.take count ++ (m.keep ++ m.pull.drop count)).Perm (m.keep ++ m.pull) := by
    have hswap : (m.pull.take count ++ (m.keep ++ m.pull.drop count)).Perm
        (m.keep ++ (m.pull.take count ++ m.pull.drop count)) := List.perm_append_comm_assoc _ _ _
    rwa [List.take_append_drop] at hswap
  rw [List.append_assoc m.merged] at hs
  exact hs.trans (hc.append_left m.merged)

theorem result_perm (m : Merging α) : m.result.Perm m.content := by
  have hr : (m.merged.reverse ++ (m.pull ++ m.keep)).Perm (m.merged ++ (m.keep ++ m.pull)) :=
    (List.reverse_perm _).append List.perm_append_comm
  rwa [← List.append_assoc] at hr

end Merging

theorem leapKeep_content {d : Direction α} {m m' : Merging α} {n : Nat}
    (h : leapKeep d m = some (m', n)) : m'.content.Perm m.content := by
  unfold leapKeep at h
  split at h
  · cases h
    exact List.Perm.refl _
  · simp only [Option.bind_eq_bind, Option.bind_eq_some_iff, Option.pure_def, Option.some.injEq,
      Prod.mk.injEq] at h
    obtain ⟨count, _, rfl, _⟩ := h
    split
    · exact m.moveKeep_content count
    · exact (Merging.movePull_content _ 1).trans (m.moveKeep_content count)

theorem leapPull_content {d : Direction α} {m m' : Merging α} {n : Nat}
    (h : leapPull d m = some (m', n)) : m'.content.Perm m.content := by
  unfold leapPull at h
  split at h
  · cases h
    exact List.Perm.refl _
  · simp only [Option.bind_eq_bind, Option.bind_eq_some_iff, Option.pure_def, Option.some.injEq,
      Prod.mk.injEq] at h
    obtain ⟨count, _, rfl, _⟩ := h
    split
    · exact m.movePull_content count
    · exact (Merging.moveKeep_content _ 1).trans (m.movePull_content count)

theorem leapBoth_content {d : Direction α} {m m' : Merging α} {worth : Bool}
    (h : leapBoth d m = some (m', worth)) : m'.content.Perm m.content := by
  cases hd : d.keepFirst with
  | true =>
    simp only [leapBoth, hd, ↓reduceIte, Option.bind_eq_bind, Option.bind_eq_some_iff,
      Option.pure_def, Prod.exists] at h
    obtain ⟨k, first, hk, h⟩ := h
    have hc := leapKeep_content hk
    split at h
    · cases h
      exact hc
    · simp only [Option.bind_eq_some_iff, Option.some.injEq, Prod.mk.injEq, Prod.exists] at h
      obtain ⟨l, second, hl, rfl, _⟩ := h
      exact (leapPull_content hl).trans hc
  | false =>
    simp only [leapBoth, hd, Bool.false_eq_true, ↓reduceIte, Option.bind_eq_bind,
      Option.bind_eq_some_iff, Option.pure_def, Prod.exists] at h
    obtain ⟨k, first, hk, h⟩ := h
    have hc := leapPull_content hk
    split at h
    · cases h
      exact hc
    · simp only [Option.bind_eq_some_iff, Option.some.injEq, Prod.mk.injEq, Prod.exists] at h
      obtain ⟨l, second, hl, rfl, _⟩ := h
      exact (leapKeep_content hl).trans hc

theorem takeOne_content {d : Direction α} {m m' : Merging α} {kept pulled k p : Nat}
    (h : takeOne d m kept pulled = some (m', k, p)) : m'.content.Perm m.content := by
  unfold takeOne at h
  split at h
  · simp only [Option.bind_eq_bind, Option.bind_eq_some_iff, Option.pure_def] at h
    obtain ⟨b, _, h⟩ := h
    split at h <;> cases h
    · exact m.movePull_content 1
    · exact m.moveKeep_content 1
  · cases h
    exact List.Perm.refl _

/-- A merge on its way loses nothing and makes nothing up, whatever the answers to its questions. -/
theorem mergeOn_content {d : Direction α} {rounds patience p : Nat} {pace : Pace} {m m' : Merging α}
    (h : mergeOn d rounds patience pace m = some (m', p)) : m'.content.Perm m.content := by
  induction rounds generalizing patience pace m with
  | zero =>
    cases h
    exact List.Perm.refl _
  | succ rounds ih =>
    unfold mergeOn at h
    split at h
    · cases h
      exact List.Perm.refl _
    · cases pace with
      | single kept pulled =>
        simp only [Option.bind_eq_bind, Option.bind_eq_some_iff, Option.pure_def, Prod.exists] at h
        obtain ⟨k, kept', pulled', hk, h⟩ := h
        have hc := takeOne_content hk
        split at h
        · cases h
          exact hc
        · split at h
          · exact (ih h).trans hc
          · exact (ih h).trans hc
      | leaping =>
        simp only [Option.bind_eq_bind, Option.bind_eq_some_iff, Option.pure_def, Prod.exists] at h
        obtain ⟨k, worth, hk, h⟩ := h
        have hc := leapBoth_content hk
        split at h
        · cases h
          exact hc
        · split at h
          · exact (ih h).trans hc
          · exact (ih h).trans hc

theorem mergeFrom_perm {d : Direction α} {patience p : Nat} {keep pull ys : List α}
    (h : mergeFrom d patience keep pull = some (ys, p)) : ys.Perm (keep ++ pull) := by
  simp only [mergeFrom, Option.bind_eq_bind, Option.bind_eq_some_iff, Option.pure_def,
    Option.some.injEq, Prod.mk.injEq, Prod.exists] at h
  obtain ⟨m, q, hm, rfl, _⟩ := h
  have hc := (mergeOn_content hm).trans (Merging.movePull_content _ 1)
  exact m.result_perm.trans hc

theorem mergeShorter_perm {patience p : Nat} {a b ys : List α}
    (h : mergeShorter isBefore? patience a b = some (ys, p)) : ys.Perm (a ++ b) := by
  unfold mergeShorter at h
  split at h
  · exact mergeFrom_perm h
  · obtain ⟨⟨zs, q⟩, hz, hy⟩ := Option.map_eq_some_iff.mp h
    cases hy
    have hr := mergeFrom_perm hz
    rw [← List.reverse_append] at hr
    exact (List.reverse_perm _).trans (hr.trans (List.reverse_perm _))

/-- Merging two runs only rearranges their values. -/
theorem mergeRuns_perm {patience p : Nat} {a b ys : List α}
    (h : mergeRuns isBefore? patience a b = some (ys, p)) : ys.Perm (a ++ b) := by
  unfold mergeRuns at h
  split at h
  · cases h
    simp
  · rename_i first rest
    simp only [Option.bind_eq_bind, Option.bind_eq_some_iff, Option.pure_def] at h
    obtain ⟨front, _, h⟩ := h
    split at h
    · cases h
      exact List.Perm.refl _
    · simp only [Option.bind_eq_some_iff] at h
      obtain ⟨count, _, h⟩ := h
      split at h
      · cases h
        exact List.Perm.refl _
      · simp only [Option.bind_eq_some_iff, Option.some.injEq, Prod.mk.injEq, Prod.exists] at h
        obtain ⟨merged, q, hm, rfl, _⟩ := h
        have hs := ((mergeShorter_perm hm).append_left (a.take front)).append_right
          ((first :: rest).drop count)
        rw [← List.append_assoc (a.take front), List.take_append_drop, List.append_assoc a,
          List.take_append_drop] at hs
        exact hs

/-! ### Merging all runs -/

def waiting (runs : List (Run α)) : List α :=
  runs.reverse.flatMap Run.values

theorem waiting_cons (r : Run α) (runs : List (Run α)) : waiting (r :: runs) = waiting runs ++ r.values := by
  simp [waiting]

theorem mergeDeeper_perm {depth rounds patience : Nat} {runs : List (Run α)} {p : Pending α}
    (h : mergeDeeper isBefore? depth rounds runs patience = some p) :
    (waiting p.runs).Perm (waiting runs) := by
  induction rounds generalizing runs patience with
  | zero =>
    cases h
    exact List.Perm.refl _
  | succ rounds ih =>
    unfold mergeDeeper at h
    split at h
    · rename_i n top under rest heq
      cases heq
      split at h
      · simp only [Option.bind_eq_bind, Option.bind_eq_some_iff, Prod.exists] at h
        obtain ⟨values, q, hv, h⟩ := h
        have hm := (mergeRuns_perm hv).append_left (waiting rest)
        simp only [waiting_cons] at ih ⊢
        rw [← List.append_assoc] at hm
        exact (ih h).trans (by rw [waiting_cons]; exact hm)
      · cases h
        exact List.Perm.refl _
    · cases h
      exact List.Perm.refl _

theorem push_perm {size : Nat} {p q : Pending α} {values : List α}
    (h : p.push isBefore? size values = some q) : (waiting q.runs).Perm (waiting p.runs ++ values) := by
  unfold Pending.push at h
  split at h
  · rename_i hp
    cases h
    simp [hp, waiting]
  · simp only [Option.bind_eq_bind, Option.bind_eq_some_iff, Option.pure_def, Option.some.injEq] at h
    obtain ⟨r, hr, rfl⟩ := h
    have hm := (mergeDeeper_perm hr).append_right values
    rw [waiting_cons]
    refine List.Perm.trans ?_ hm
    cases r.runs with
    | nil => exact List.Perm.refl _
    | cons top rest =>
      simp only [waiting_cons]
      exact List.Perm.refl _

theorem mergeAll_perm {rounds patience : Nat} {runs : List (Run α)} {ys : List α}
    (h : mergeAll isBefore? rounds runs patience = some ys) : ys.Perm (waiting runs) := by
  induction rounds generalizing runs patience with
  | zero =>
    unfold mergeAll at h
    cases h
    exact List.Perm.refl _
  | succ rounds ih =>
    unfold mergeAll at h
    split at h
    · rename_i n top middle low rest heq
      cases heq
      simp only [Option.bind_eq_bind] at h
      split at h
      · simp only [Option.bind_eq_some_iff, Prod.exists] at h
        obtain ⟨values, q, hv, h⟩ := h
        have hm := ((mergeRuns_perm hv).append_left (waiting rest)).append_right top.values
        refine (ih h).trans ?_
        simp only [waiting_cons, List.append_assoc] at hm ⊢
        exact hm
      · simp only [Option.bind_eq_some_iff, Prod.exists] at h
        obtain ⟨values, q, hv, h⟩ := h
        have hm := (mergeRuns_perm hv).append_left (waiting rest ++ low.values)
        refine (ih h).trans ?_
        simp only [waiting_cons, List.append_assoc] at hm ⊢
        exact hm
    · simp only [Option.bind_eq_bind, Option.bind_eq_some_iff, Option.pure_def, Option.some.injEq,
        Prod.exists] at h
      obtain ⟨values, q, hv, rfl⟩ := h
      simpa [waiting] using mergeRuns_perm hv
    · cases h
      exact List.Perm.refl _

/-- All values find their way into a run, since each run takes at least one. -/
theorem pushAll_perm {size least rounds : Nat} {p q : Pending α} {xs : List α}
    (hr : xs.length ≤ rounds) (h : pushAll isBefore? size least rounds p xs = some q) :
    (waiting q.runs).Perm (waiting p.runs ++ xs) := by
  induction rounds generalizing p xs with
  | zero =>
    obtain rfl := List.eq_nil_of_length_eq_zero (Nat.le_zero.mp hr)
    cases h
    simp
  | succ rounds ih =>
    cases xs with
    | nil =>
      cases h
      simp
    | cons x xs =>
      simp only [pushAll, Option.bind_eq_bind, Option.bind_eq_some_iff, Prod.exists] at h
      obtain ⟨run, rest, hn, r, hp, h⟩ := h
      have hl := nextRun_length hn
      have hrest := ih (by simp only [List.length_cons] at hr; omega) h
      refine hrest.trans (((push_perm hp).append_right rest).trans ?_)
      rw [List.append_assoc]
      exact (nextRun_perm hn).append_left _

end Arrange

/-- An arrangement has exactly the values it was given. -/
theorem arrange?_perm {α : Type} {relate : α → α → Relation} {xs ys : List α}
    (h : arrange? relate xs = some ys) : ys.Perm xs := by
  simp only [arrange?, Option.bind_eq_bind, Option.bind_eq_some_iff] at h
  obtain ⟨p, hp, hy⟩ := h
  have hpush := Arrange.pushAll_perm (Nat.le_refl _) hp
  exact (Arrange.mergeAll_perm hy).trans hpush

theorem sortOn_perm {α κ : Type} [Ord κ] (key : α → κ) (xs : List α) : (sortOn key xs).Perm xs :=
  List.mergeSort_perm xs _

theorem orderOn_perm {α κ : Type} [Ord κ] [Ranked κ] (key : α → κ) (xs : List α) :
    (orderOn key xs).Perm xs := by
  unfold orderOn
  cases h : orderOn? key xs with
  | none => exact List.Perm.refl _
  | some ys =>
    simp only [Option.getD_some]
    unfold orderOn? at h
    split at h
    · cases h
      exact sortOn_perm key xs
    · exact arrange?_perm h

theorem mem_of_mem_eraseDupsBy {α : Type} {r : α → α → Bool} {xs : List α} {x : α}
    (h : x ∈ xs.eraseDupsBy r) : x ∈ xs := by
  match xs with
  | [] => exact h
  | y :: ys =>
    rw [List.eraseDupsBy_cons] at h
    rcases List.mem_cons.mp h with rfl | h
    · exact List.mem_cons_self
    · exact List.mem_cons_of_mem _ (List.mem_filter.mp (mem_of_mem_eraseDupsBy h)).1
termination_by xs.length
decreasing_by
  have hl := List.length_filter_le (fun b => r b y = false) ys
  simp only [List.length_cons]
  omega

/-- Each key stays, and stays once. -/
theorem eraseDupsBy_key {α β : Type} [BEq β] [LawfulBEq β] (f : α → β) (xs : List α) :
    (∀ x ∈ xs, ∃ y ∈ xs.eraseDupsBy fun a b => f a == f b, f y = f x) ∧
      ((xs.eraseDupsBy fun a b => f a == f b).map f).Nodup := by
  match xs with
  | [] => simp
  | x :: xs =>
    obtain ⟨hcovers, hnodup⟩ := eraseDupsBy_key f (xs.filter fun b => (f b == f x) = false)
    rw [List.eraseDupsBy_cons]
    constructor
    · intro z hz
      by_cases he : f x = f z
      · exact ⟨x, List.mem_cons_self, he⟩
      · have hz' : z ∈ xs := by
          rcases List.mem_cons.mp hz with rfl | hz
          · exact absurd rfl he
          · exact hz
        have hne : (f z == f x) = false := beq_eq_false_iff_ne.mpr fun h => he h.symm
        obtain ⟨y, hy, hyz⟩ := hcovers z (List.mem_filter.mpr ⟨hz', decide_eq_true hne⟩)
        exact ⟨y, List.mem_cons_of_mem _ hy, hyz⟩
    · rw [List.map_cons, List.nodup_cons]
      refine ⟨?_, hnodup⟩
      intro hm
      obtain ⟨y, hy, hyx⟩ := List.mem_map.mp hm
      have hfalse := of_decide_eq_true (List.mem_filter.mp (mem_of_mem_eraseDupsBy hy)).2
      simp [hyx] at hfalse
termination_by xs.length
decreasing_by
  have hl := List.length_filter_le (fun b => (f b == f x) = false) xs
  simp only [List.length_cons]
  omega

theorem LockPath.mem_sorted {paths : List LockPath} {p : LockPath} :
    p ∈ LockPath.sorted paths ↔ p ∈ paths :=
  (orderOn_perm id paths).mem_iff

end LockAudit
