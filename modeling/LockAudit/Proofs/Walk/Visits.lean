import LockAudit.Proofs.Name.Order
import LockAudit.Walk.State

/-! # Counting entries of blocks

Entries are counted in a list that stands in ascending order of activation and block. As long as blocks
are named by keys the order is kept, and counting an entry changes one count and no other.
-/

namespace LockAudit.Walk

def Visits.Before (v w : (Nat × Target) × Nat) : Prop :=
  v.1.1 < w.1.1 ∨ v.1.1 = w.1.1 ∧ compare v.1.2 w.1.2 = .lt

structure Visits.Ascending (vs : Visits) : Prop where
  keyed : ∀ v ∈ vs, Name.isKey v.1.2 = true
  sorted : vs.Pairwise Visits.Before

namespace Visits

theorem Before.trans {u v w : (Nat × Target) × Nat} (huv : Before u v) (hvw : Before v w) :
    Before u w := by
  rcases huv with huv | ⟨huv, hc⟩
  · rcases hvw with hvw | ⟨hvw, _⟩
    · exact .inl (Nat.lt_trans huv hvw)
    · exact .inl (hvw ▸ huv)
  · rcases hvw with hvw | ⟨hvw, hc'⟩
    · exact .inl (huv ▸ hvw)
    · exact .inr ⟨huv.trans hvw, Std.TransCmp.lt_trans hc hc'⟩

abbrev Counts (v : (Nat × Target) × Nat) (frame : Nat) (block : Target) : Prop :=
  v.1.1 = frame ∧ Name.same v.1.2 block = true

theorem Before.not_counts {v : (Nat × Target) × Nat} {frame n : Nat} {block : Target}
    (h : Before ((frame, block), n) v) : ¬ Counts v frame block := by
  rintro ⟨hframe, hsame⟩
  rcases h with h | ⟨_, hc⟩
  · exact Nat.lt_irrefl _ (hframe ▸ h)
  · have heq : compare block v.1.2 = compare block block :=
      Name.compare_congr rfl (Name.same_iff.mp hsame)
    rw [heq, Std.ReflOrd.compare_self] at hc
    cases hc

theorem count_cons (v : (Nat × Target) × Nat) (vs : Visits) (frame : Nat) (block : Target) :
    count (v :: vs) frame block = if Counts v frame block then v.2 else count vs frame block := by
  unfold count
  rw [List.find?_cons]
  by_cases h : Counts v frame block
  · have hb : (v.1.1 == frame && Name.same v.1.2 block) = true := by simpa using h
    rw [hb, if_pos h]
  · have hb : (v.1.1 == frame && Name.same v.1.2 block) = false := by
      simpa only [Bool.and_eq_true, beq_iff_eq, ← Bool.not_eq_true] using h
    rw [hb, if_neg h]

theorem count_same {vs : Visits} {frame : Nat} {b c : Target} (h : Name.same b c = true) :
    vs.count frame b = vs.count frame c := by
  unfold Visits.count
  have hp : (fun v : (Nat × Target) × Nat => v.1.1 == frame && Name.same v.1.2 b) =
      fun v => v.1.1 == frame && Name.same v.1.2 c := by
    funext v
    rw [Name.same_congr rfl (Name.same_iff.mp h)]
  rw [hp]

theorem count_eq_zero {vs : Visits} {frame : Nat} {block : Target}
    (h : ∀ v ∈ vs, ¬ Counts v frame block) : vs.count frame block = 0 := by
  induction vs with
  | nil => rfl
  | cons v vs ih =>
    obtain ⟨hv, hvs⟩ := List.forall_mem_cons.mp h
    rw [count_cons, if_neg hv, ih hvs]

/-- Of an entry that does not count for a block and does not stand behind it, the block stands behind. -/
theorem before_of_not {v : (Nat × Target) × Nat} {frame n : Nat} {block : Target}
    (hk : Name.isKey v.1.2 = true) (hb : Name.isKey block = true) (hne : ¬ Counts v frame block)
    (hnot : ¬ Before ((frame, block), n) v) : Before v ((frame, block), n) := by
  rcases Nat.lt_trichotomy v.1.1 frame with hlt | heq | hgt
  · exact .inl hlt
  · refine .inr ⟨heq, ?_⟩
    cases hc : compare v.1.2 block with
    | lt => rfl
    | eq => exact absurd ⟨heq, Name.same_iff.mpr (Name.canonical_eq_of_compare hk hb hc)⟩ hne
    | gt =>
      refine absurd (.inr ⟨heq.symm, ?_⟩) hnot
      rw [Std.OrientedOrd.eq_swap, hc]
      rfl
  · exact absurd (.inl hgt) hnot

/-- What counting an entry does: the count at the block goes up, or the block gets its place. -/
theorem enter_cons {v : (Nat × Target) × Nat} (vs : Visits) (hk : Name.isKey v.1.2 = true)
    (frame : Nat) {block : Target} (hb : Name.isKey block = true) :
    (Counts v frame block ∧ enter frame block (v :: vs) = (v.1, v.2 + 1) :: vs) ∨
    (Before ((frame, block), 1) v ∧ enter frame block (v :: vs) = ((frame, block), 1) :: v :: vs) ∨
    (¬ Counts v frame block ∧ Before v ((frame, block), 1) ∧
      enter frame block (v :: vs) = v :: enter frame block vs) := by
  obtain ⟨⟨f, b⟩, n⟩ := v
  by_cases hc : Counts ((f, b), n) frame block
  · have hcb : (decide (f = frame) && Name.same b block) = true := by
      simpa only [Bool.and_eq_true, decide_eq_true_eq] using hc
    exact .inl ⟨hc, by simp only [enter, hcb, if_true]⟩
  · have hcb : (decide (f = frame) && Name.same b block) = false := by
      simpa only [Bool.and_eq_true, decide_eq_true_eq, ← Bool.not_eq_true] using hc
    have hiff : (decide (frame < f) || decide (frame = f) && compare block b == .lt) = true ↔
        Before ((frame, block), 1) ((f, b), n) := by
      simp only [Bool.or_eq_true, Bool.and_eq_true, decide_eq_true_eq, beq_iff_eq, Before]
    by_cases hbefore : Before ((frame, block), 1) ((f, b), n)
    · refine .inr (.inl ⟨hbefore, ?_⟩)
      simp only [enter, hcb, hiff.mpr hbefore, Bool.false_eq_true, if_false, if_true]
    · refine .inr (.inr ⟨hc, before_of_not hk hb hc hbefore, ?_⟩)
      simp only [enter, hcb, mt hiff.mp hbefore, Bool.false_eq_true, if_false]

theorem mem_enter {vs : Visits} {frame : Nat} {block : Target} (hk : ∀ v ∈ vs, Name.isKey v.1.2 = true)
    (hb : Name.isKey block = true) {w : (Nat × Target) × Nat} (h : w ∈ vs.enter frame block) :
    w.1 = (frame, block) ∨ ∃ v ∈ vs, v.1 = w.1 := by
  induction vs with
  | nil => exact .inl (congrArg Prod.fst (List.mem_singleton.mp h))
  | cons v vs ih =>
    obtain ⟨hkv, hkvs⟩ := List.forall_mem_cons.mp hk
    obtain ⟨_, he⟩ | ⟨_, he⟩ | ⟨_, _, he⟩ := enter_cons vs hkv frame hb <;> rw [he] at h
    · rcases List.mem_cons.mp h with rfl | h
      · exact .inr ⟨v, List.mem_cons_self, rfl⟩
      · exact .inr ⟨w, List.mem_cons_of_mem _ h, rfl⟩
    · rcases List.mem_cons.mp h with rfl | h
      · exact .inl rfl
      · exact .inr ⟨w, h, rfl⟩
    · rcases List.mem_cons.mp h with rfl | h
      · exact .inr ⟨w, List.mem_cons_self, rfl⟩
      · rcases ih hkvs h with hw | ⟨u, hu, he⟩
        · exact .inl hw
        · exact .inr ⟨u, List.mem_cons_of_mem _ hu, he⟩

theorem before_congr {u v w : (Nat × Target) × Nat} (h : v.1 = w.1) (hb : Before u v) : Before u w := by
  unfold Before at hb ⊢
  rwa [← h]

/-- Counting one more entry keeps the counts in order. -/
theorem Ascending.enter {vs : Visits} (h : vs.Ascending) {block : Target}
    (hb : Name.isKey block = true) (frame : Nat) : (Visits.enter frame block vs).Ascending := by
  refine ⟨?_, ?_⟩
  · intro w hw
    rcases mem_enter h.keyed hb hw with hw | ⟨v, hv, hvw⟩
    · rwa [hw]
    · rw [← hvw]
      exact h.keyed v hv
  · obtain ⟨hk, hs⟩ := h
    induction vs with
    | nil => exact List.pairwise_singleton _ _
    | cons v vs ih =>
      obtain ⟨hkv, hkvs⟩ := List.forall_mem_cons.mp hk
      obtain ⟨hv, hvs⟩ := List.pairwise_cons.mp hs
      obtain ⟨_, he⟩ | ⟨hbefore, he⟩ | ⟨_, hbefore, he⟩ := enter_cons vs hkv frame hb <;> rw [he]
      · exact .cons hv hvs
      · exact .cons (List.forall_mem_cons.mpr ⟨hbefore, fun w hw => hbefore.trans (hv w hw)⟩) hs
      · refine .cons ?_ (ih hkvs hvs)
        intro w hw
        rcases mem_enter hkvs hb hw with hw | ⟨u, hu, huw⟩
        · exact before_congr hw.symm hbefore
        · exact before_congr huw (hv u hu)

theorem Counts.both {v w : (Nat × Target) × Nat} {frame : Nat} {block : Target}
    (hv : Counts v frame block) (hw : Counts w frame block) : Counts v w.1.1 w.1.2 :=
  ⟨hv.1.trans hw.1.symm,
    Name.same_trans hv.2 (Name.same_symm hw.2)⟩

/-- Counting an entry adds one at its block and leaves all other counts as they are. -/
theorem Ascending.count_enter {vs : Visits} (h : vs.Ascending) {block : Target}
    (hb : Name.isKey block = true) (frame f : Nat) (b : Target) :
    (Visits.enter frame block vs).count f b =
      vs.count f b + if Counts ((frame, block), 1) f b then 1 else 0 := by
  obtain ⟨hk, hs⟩ := h
  induction vs with
  | nil => rw [Visits.enter, count_cons]; simp [count]
  | cons v vs ih =>
    obtain ⟨hkv, hkvs⟩ := List.forall_mem_cons.mp hk
    obtain ⟨hv, hvs⟩ := List.pairwise_cons.mp hs
    obtain ⟨hc, he⟩ | ⟨hbefore, he⟩ | ⟨hc, _, he⟩ := enter_cons vs hkv frame hb
    · have hsame : v.1.2.canonical = block.canonical := Name.same_iff.mp hc.2
      have hiff : Counts ((frame, block), 1) f b ↔ Counts v f b := by
        simp only [Counts, hc.1, Name.same_iff, hsame]
      rw [he, count_cons, count_cons]
      by_cases hcv : Counts v f b
      · rw [if_pos hcv, if_pos hcv, if_pos (hiff.mpr hcv)]
      · rw [if_neg hcv, if_neg hcv, if_neg (mt hiff.mp hcv)]
        rfl
    · rw [he, count_cons]
      by_cases hcb : Counts ((frame, block), 1) f b
      · -- all that stands behind the new entry counts for later blocks
        have hnone : ∀ w ∈ v :: vs, ¬ Counts w f b := by
          intro w hw hcw
          have hbw : Before ((frame, block), 1) w := by
            rcases List.mem_cons.mp hw with rfl | hw
            · exact hbefore
            · exact hbefore.trans (hv w hw)
          exact hbw.not_counts (hcw.both hcb)
        rw [if_pos hcb, if_pos hcb, count_eq_zero hnone]
      · rw [if_neg hcb, if_neg hcb]
        rfl
    · rw [he, count_cons, count_cons, ih hkvs hvs]
      by_cases hcv : Counts v f b
      · have hcb : ¬ Counts ((frame, block), 1) f b := fun hcb => hc (hcv.both hcb)
        rw [if_pos hcv, if_pos hcv, if_neg hcb]
        rfl
      · rw [if_neg hcv, if_neg hcv]

theorem Ascending.count_le_enter {vs : Visits} (h : vs.Ascending) {block : Target}
    (hb : Name.isKey block = true) (frame f : Nat) (b : Target) :
    vs.count f b ≤ (Visits.enter frame block vs).count f b := by
  rw [h.count_enter hb]
  exact Nat.le_add_right _ _

theorem Ascending.count_enter_self {vs : Visits} (h : vs.Ascending) {block : Target}
    (hb : Name.isKey block = true) (frame : Nat) :
    (Visits.enter frame block vs).count frame block = vs.count frame block + 1 := by
  rw [h.count_enter hb, if_pos ⟨rfl, Name.same_iff.mpr rfl⟩]

end Visits

end LockAudit.Walk
