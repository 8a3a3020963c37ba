import LockAudit.Detection.Nesting
import Mathlib.Data.List.Induction
import Mathlib.Data.List.Nodup

/-! # What a replay holds

Replaying events keeps a list of holdings. Whatever the events are, the positions of the holdings ascend,
and the holdings are exactly the acquisitions that no later release names. The nestings of a path are the
pairs of an acquisition and a holding of the replay before it.
-/

namespace LockAudit

/-! ### Lists -/

theorem map_eraseP_key {α : Type} (key : α → Nat) (xs : List α) (k : Nat) :
    (xs.eraseP fun x => key x == k).map key = (xs.map key).erase k := by
  rw [List.erase_eq_eraseP', List.eraseP_map]
  rfl

theorem mem_eraseP_key {α : Type} {key : α → Nat} {xs : List α} (hn : (xs.map key).Nodup) (k : Nat)
    (x : α) : x ∈ xs.eraseP (fun y => key y == k) ↔ x ∈ xs ∧ key x ≠ k := by
  constructor
  · intro hx
    refine ⟨List.mem_of_mem_eraseP hx, ?_⟩
    have hk : key x ∈ (xs.map key).erase k := by
      rw [← map_eraseP_key]
      exact List.mem_map_of_mem hx
    exact (hn.mem_erase_iff.mp hk).1
  · rintro ⟨hx, hk⟩
    exact (List.mem_eraseP_of_neg (by simpa using hk)).mpr hx

theorem getElem?_concat_eq_some_iff {α : Type} {xs : List α} {x y : α} {i : Nat} :
    (xs ++ [x])[i]? = some y ↔ xs[i]? = some y ∨ i = xs.length ∧ x = y := by
  rcases Nat.lt_trichotomy i xs.length with h | h | h
  · simp [List.getElem?_append_left h, Nat.ne_of_lt h]
  · simp [h]
  · have hnone : xs[i]? = none := List.getElem?_eq_none (Nat.le_of_lt h)
    have hconcat : (xs ++ [x])[i]? = none := by
      refine List.getElem?_eq_none ?_
      rw [List.length_append, List.length_singleton]
      exact h
    rw [hnone, hconcat]
    simp [Nat.ne_of_gt h]

namespace Detection

/-! ### Replays -/

/-- The holdings after events, the first of which has position `index` and follows the holdings `held`. -/
def replayFrom (index : Nat) (held : List Holding) : List Event → List Holding
  | [] => held
  | e :: es => replayFrom (index + 1) (replayStep held index e) es

def replay (events : List Event) : List Holding :=
  replayFrom 0 [] events

theorem replayFrom_append (index : Nat) (held : List Holding) (xs ys : List Event) :
    replayFrom index held (xs ++ ys) =
      replayFrom (index + xs.length) (replayFrom index held xs) ys := by
  induction xs generalizing index held with
  | nil => rfl
  | cons x xs ih =>
    simp only [List.cons_append, replayFrom, List.length_cons]
    rw [ih, Nat.add_right_comm, Nat.add_assoc]

@[simp] theorem replay_nil : replay [] = [] := rfl

theorem replay_concat (es : List Event) (e : Event) :
    replay (es ++ [e]) = replayStep (replay es) es.length e := by
  simp [replay, replayFrom_append, replayFrom]

theorem replay_concat_acquire {e : Event} (h : e.op = .acquire) (es : List Event) :
    replay (es ++ [e]) = replay es ++ [{ index := es.length, event := e }] := by
  simp [replay_concat, replayStep, h]

theorem replay_concat_release {e : Event} (h : e.op = .release) (es : List Event) :
    replay (es ++ [e]) = endHolding (replay es) e.acquired := by
  simp [replay_concat, replayStep, h]

theorem endHolding_sublist (held : List Holding) (acquired : Option Int) :
    (endHolding held acquired).Sublist held := by
  cases acquired with
  | none => exact List.Sublist.refl _
  | some i => exact List.eraseP_sublist

theorem endHolding_ofNat (held : List Holding) (j : Nat) :
    endHolding held (some (Int.ofNat j)) = held.eraseP fun h => h.index == j := by
  have hp : (fun h : Holding => Int.ofNat h.index == Int.ofNat j) = fun h => h.index == j := by
    funext h
    rw [Bool.eq_iff_iff, beq_iff_eq, beq_iff_eq, Int.ofNat.injEq]
  exact congrArg held.eraseP hp

theorem map_index_endHolding (held : List Holding) (j : Nat) :
    (endHolding held (some (Int.ofNat j))).map Holding.index = (held.map Holding.index).erase j := by
  rw [endHolding_ofNat, map_eraseP_key]

theorem mem_endHolding {held : List Holding} (hn : (held.map Holding.index).Nodup)
    (acquired : Option Int) (h : Holding) :
    h ∈ endHolding held acquired ↔ h ∈ held ∧ acquired ≠ some (Int.ofNat h.index) := by
  rcases acquired with _ | j | j
  · simp [endHolding]
  · rw [endHolding_ofNat, mem_eraseP_key hn, ne_eq, ne_eq, Option.some.injEq, Int.ofNat.injEq]
    exact and_congr_right' (not_congr eq_comm)
  · have he : endHolding held (some (Int.negSucc j)) = held :=
      List.eraseP_of_forall_not fun k _ => by simp
    simp [he]

/-- The positions of holdings ascend and lie within the events. -/
theorem replay_ascending (es : List Event) :
    ((replay es).map Holding.index).Pairwise (· < ·) ∧ ∀ h ∈ replay es, h.index < es.length := by
  induction es using List.reverseRecOn with
  | nil => simp
  | append_singleton es e ih =>
    obtain ⟨hs, hb⟩ := ih
    cases ho : e.op with
    | acquire =>
      rw [replay_concat_acquire ho]
      constructor
      · rw [List.map_append, List.pairwise_append]
        refine ⟨hs, List.pairwise_singleton _ _, ?_⟩
        intro i hi j hj
        obtain ⟨h, hh, rfl⟩ := List.mem_map.mp hi
        obtain rfl : j = es.length := by simpa using hj
        exact hb h hh
      · intro h hh
        rcases List.mem_append.mp hh with hh | hh
        · simpa using Nat.lt_succ_of_lt (hb h hh)
        · obtain rfl := List.mem_singleton.mp hh
          simp
    | release =>
      rw [replay_concat_release ho]
      have hsub := endHolding_sublist (replay es) e.acquired
      refine ⟨hs.sublist (hsub.map _), ?_⟩
      intro h hh
      simpa using Nat.lt_succ_of_lt (hb h (hsub.subset hh))

theorem replay_nodup (es : List Event) : ((replay es).map Holding.index).Nodup :=
  (replay_ascending es).1.imp Nat.ne_of_lt

def NotReleased (es : List Event) (j : Nat) : Prop :=
  ∀ i e, j < i → es[i]? = some e → e.op = .release → e.acquired ≠ some (Int.ofNat j)

theorem notReleased_of_length_le {es : List Event} {j : Nat} (hj : es.length ≤ j + 1) :
    NotReleased es j := by
  intro i e hi he
  have hl := (List.getElem?_eq_some_iff.mp he).1
  omega

theorem notReleased_concat {es : List Event} {j : Nat} (hj : j < es.length) (e : Event) :
    NotReleased (es ++ [e]) j ↔
      NotReleased es j ∧ (e.op = .release → e.acquired ≠ some (Int.ofNat j)) := by
  constructor
  · intro h
    refine ⟨?_, h es.length e hj (by simp)⟩
    intro i f hi hf
    have hl := (List.getElem?_eq_some_iff.mp hf).1
    exact h i f hi (by rwa [List.getElem?_append_left hl])
  · rintro ⟨h, he⟩ i f hi hf
    rcases getElem?_concat_eq_some_iff.mp hf with hf | ⟨rfl, rfl⟩
    · exact h i f hi hf
    · exact he

/-- A holding is an acquisition that no later event releases. -/
theorem mem_replay (es : List Event) (h : Holding) :
    h ∈ replay es ↔ es[h.index]? = some h.event ∧ h.event.op = .acquire ∧ NotReleased es h.index := by
  induction es using List.reverseRecOn with
  | nil => simp
  | append_singleton es e ih =>
    rw [getElem?_concat_eq_some_iff]
    constructor
    · intro hm
      cases ho : e.op with
      | acquire =>
        rw [replay_concat_acquire ho] at hm
        rcases List.mem_append.mp hm with hm | hm
        · obtain ⟨he, ha, hr⟩ := ih.mp hm
          have hl := (List.getElem?_eq_some_iff.mp he).1
          exact ⟨.inl he, ha, (notReleased_concat hl e).mpr ⟨hr, by simp [ho]⟩⟩
        · obtain rfl := List.mem_singleton.mp hm
          exact ⟨.inr ⟨rfl, rfl⟩, ho, notReleased_of_length_le (by simp)⟩
      | release =>
        rw [replay_concat_release ho, mem_endHolding (replay_nodup es)] at hm
        obtain ⟨he, ha, hr⟩ := ih.mp hm.1
        have hl := (List.getElem?_eq_some_iff.mp he).1
        exact ⟨.inl he, ha, (notReleased_concat hl e).mpr ⟨hr, fun _ => hm.2⟩⟩
    · rintro ⟨he | ⟨hi, rfl⟩, ha, hr⟩
      · have hl := (List.getElem?_eq_some_iff.mp he).1
        obtain ⟨hr, hn⟩ := (notReleased_concat hl e).mp hr
        have hm := ih.mpr ⟨he, ha, hr⟩
        cases ho : e.op with
        | acquire => exact replay_concat_acquire ho es ▸ List.mem_append_left _ hm
        | release =>
          rw [replay_concat_release ho, mem_endHolding (replay_nodup es)]
          exact ⟨hm, hn ho⟩
      · rw [replay_concat_acquire ha, ← hi]
        exact List.mem_append_right _ List.mem_cons_self

/-! ### Nestings -/

theorem nestingsFrom_append (index : Nat) (held : List Holding) (xs ys : List Event) :
    nestingsFrom index held (xs ++ ys) =
      nestingsFrom index held xs ++
        nestingsFrom (index + xs.length) (replayFrom index held xs) ys := by
  induction xs generalizing index held with
  | nil => rfl
  | cons x xs ih =>
    simp only [List.cons_append, nestingsFrom, replayFrom, List.length_cons, List.append_assoc]
    rw [ih, Nat.add_right_comm, Nat.add_assoc]

theorem mem_nestingsAt {held : List Holding} {index : Nat} {e : Event} {n : Nesting} :
    n ∈ nestingsAt held index e ↔
      e.op = .acquire ∧ n.first ∈ held ∧ n.second = { index, event := e } := by
  obtain ⟨first, second⟩ := n
  cases ho : e.op with
  | acquire => simp [nestingsAt, ho, eq_comm]
  | release => simp [nestingsAt, ho]

theorem nestingsFrom_concat (es : List Event) (e : Event) :
    nestingsFrom 0 [] (es ++ [e]) =
      nestingsFrom 0 [] es ++ nestingsAt (replay es) es.length e := by
  rw [nestingsFrom_append]
  simp [nestingsFrom, replay]

/-- A nesting is an acquisition with one of the holdings that a replay of the events before it leaves. -/
theorem mem_nestingsFrom (es : List Event) (n : Nesting) :
    n ∈ nestingsFrom 0 [] es ↔ es[n.second.index]? = some n.second.event ∧
      n.second.event.op = .acquire ∧ n.first ∈ replay (es.take n.second.index) := by
  induction es using List.reverseRecOn with
  | nil => simp [nestingsFrom]
  | append_singleton es e ih =>
    rw [nestingsFrom_concat, List.mem_append, ih, mem_nestingsAt, getElem?_concat_eq_some_iff]
    constructor
    · rintro (⟨he, ha, hf⟩ | ⟨ho, hf, hs⟩)
      · have hl := (List.getElem?_eq_some_iff.mp he).1
        rw [List.take_append_of_le_length (Nat.le_of_lt hl)]
        exact ⟨.inl he, ha, hf⟩
      · rw [hs]
        exact ⟨.inr ⟨rfl, rfl⟩, ho, by simpa using hf⟩
    · rintro ⟨he | ⟨hi, he⟩, ha, hf⟩
      · have hl := (List.getElem?_eq_some_iff.mp he).1
        rw [List.take_append_of_le_length (Nat.le_of_lt hl)] at hf
        exact .inl ⟨he, ha, hf⟩
      · obtain ⟨first, ⟨index, event⟩⟩ := n
        cases hi
        cases he
        exact .inr ⟨ha, by simpa using hf, rfl⟩

/-- A nesting is an acquisition with a holding of the replay of the events before it. -/
theorem mem_nestings (p : LockPath) (n : Nesting) :
    n ∈ nestings p ↔ p.events[n.second.index]? = some n.second.event ∧
      n.second.event.op = .acquire ∧ n.first ∈ replay (p.events.take n.second.index) :=
  mem_nestingsFrom p.events n

end Detection

end LockAudit
