import LockAudit.Proofs.Detection.Grouping
import LockAudit.Proofs.Name.Order
import LockAudit.Proofs.Order.Related
import LockAudit.Proofs.Order.Sorted

/-! # Findings are kept apart

Gathering occurrences by their key loses none of them and makes one finding of each key. Where all keys
are plain, the findings stand in ascending order of their keys.
-/

namespace LockAudit

namespace Detection

/-! ### One group for each key -/

section Groups

variable {α κ : Type} {key : α → κ} {xs : List α} {groups : List (List α)}

def KeptApart (key : α → κ) (g h : List α) : Prop :=
  ∀ a ∈ g, ∀ b ∈ h, key a ≠ key b

instance : Std.Symm (KeptApart key) :=
  ⟨fun _ _ hgh b hb a ha hab => hgh a ha b hb hab.symm⟩

/-- The members of a list in groups: each member is in one of them, and groups differ in their keys. -/
structure Partitions (key : α → κ) (xs : List α) (groups : List (List α)) : Prop where
  gathered : ∀ g ∈ groups, Gathered key xs g
  nonempty : ∀ g ∈ groups, g ≠ []
  covers : ∀ a ∈ xs, ∃ g ∈ groups, a ∈ g
  apart : groups.Pairwise (KeptApart key)

theorem Partitions.perm {groups' : List (List α)} (h : Partitions key xs groups)
    (hp : groups'.Perm groups) : Partitions key xs groups' where
  gathered g hg := h.gathered g (hp.mem_iff.mp hg)
  nonempty g hg := h.nonempty g (hp.mem_iff.mp hg)
  covers a ha := by
    obtain ⟨g, hg, hag⟩ := h.covers a ha
    exact ⟨g, hp.mem_iff.mpr hg, hag⟩
  apart := hp.symm.pairwise h.apart fun hgh => Std.Symm.symm _ _ hgh

/-- A group holds all members with its key. -/
theorem Partitions.mem_iff (h : Partitions key xs groups) {g : List α} (hg : g ∈ groups) {a b : α}
    (ha : a ∈ g) : b ∈ g ↔ b ∈ xs ∧ key b = key a := by
  constructor
  · intro hb
    exact ⟨(h.gathered g hg).1 b hb, (h.gathered g hg).2 b hb a ha⟩
  · rintro ⟨hb, hkey⟩
    obtain ⟨g', hg', hbg⟩ := h.covers b hb
    by_contra hne
    have hdiff : g' ≠ g := fun he => hne (he ▸ hbg)
    exact h.apart.forall hg' hg hdiff b hbg a ha hkey

end Groups

variable {α κ : Type} [Ord κ] {key : α → κ} {xs : List α}

def Ascends (key : α → κ) (g h : List α) : Prop :=
  ∀ a ∈ g, ∀ b ∈ h, compare (key a) (key b) = .lt

/-- Sorted occurrences are cut where the key rises, so what comes before a cut stands before all that
comes after it. -/
theorem ascends_of_cuts [Std.TransOrd κ] {groups : List (List α)}
    (hsorted : groups.flatten.Pairwise (NotAfter key))
    (hcut : groups.IsChain fun g h =>
      ∃ hg hh, (compare (key (g.getLast hg)) (key (h.head hh)) == .eq) = false) :
    groups.Pairwise (Ascends key) := by
  induction groups with
  | nil => exact .nil
  | cons g groups ih =>
    rw [List.flatten_cons, List.pairwise_append] at hsorted
    obtain ⟨hg, hrest, hbetween⟩ := hsorted
    obtain ⟨hhead, htail⟩ := List.isChain_cons.mp hcut
    refine .cons ?_ (ih hrest htail)
    intro h hh a ha b hb
    cases groups with
    | nil => cases hh
    | cons h₀ groups =>
      obtain ⟨hgne, hhne, hne⟩ := hhead h₀ rfl
      have hmem : h₀.head hhne ∈ (h₀ :: groups).flatten :=
        List.mem_flatten.mpr ⟨h₀, List.mem_cons_self, List.head_mem _⟩
      have hfirst : (h₀ :: groups).flatten.head (List.ne_nil_of_mem hmem) = h₀.head hhne := by
        simp [List.head_append_of_ne_nil hhne]
      have hup : NotAfter key a (g.getLast hgne) := hg.rel_getLast ha
      have hdown : NotAfter key (h₀.head hhne) b := by
        rw [← hfirst]
        exact hrest.rel_head (List.mem_flatten.mpr ⟨h, hh, hb⟩)
      have hrise : compare (key (g.getLast hgne)) (key (h₀.head hhne)) = .lt := by
        have hle := hbetween _ (List.getLast_mem hgne) _ hmem
        unfold NotAfter at hle
        cases hc : compare (key (g.getLast hgne)) (key (h₀.head hhne)) with
        | lt => rfl
        | eq => simp [hc] at hne
        | gt => simp [hc] at hle
      exact Std.TransCmp.lt_of_isLE_of_lt hup (Std.TransCmp.lt_of_lt_of_isLE hrise hdown)

theorem groupOn_ascending [Std.TransOrd κ] (key : α → κ) (xs : List α) :
    (groupOn key xs).Pairwise (Ascends key) := by
  refine ascends_of_cuts ?_ (List.isChain_getLast_head_splitBy
    (fun a b => compare (key a) (key b) == .eq) (sortOn key xs))
  rw [groupOn, List.flatten_splitBy]
  exact sortOn_ascending key xs

theorem groupOn_partitions [Std.TransOrd κ] (hk : TellsApart key xs) :
    Partitions key xs (groupOn key xs) where
  gathered _ hg := groupOn_gathered hk hg
  nonempty _ hg := List.ne_nil_of_mem_splitBy hg
  covers a ha := by
    have hf : a ∈ (groupOn key xs).flatten := by
      rw [groupOn, List.flatten_splitBy]
      exact (sortOn_perm key xs).mem_iff.mpr ha
    exact List.mem_flatten.mp hf
  apart := by
    refine (groupOn_ascending key xs).imp ?_
    intro g h hgh a ha b hb hab
    have hlt := hgh a ha b hb
    rw [hab, Std.ReflOrd.compare_self] at hlt
    cases hlt

theorem groupByFirst_partitions [Std.TransOrd κ] (hk : TellsApart key xs) :
    Partitions key xs (groupByFirst key xs) := by
  have hin : ∀ x ∈ xs.zipIdx, x.1 ∈ xs := fun x hx => List.fst_mem_of_mem_zipIdx hx
  have hk' : TellsApart (fun x : α × Nat => key x.1) xs.zipIdx := fun a ha b hb =>
    hk a.1 (hin a ha) b.1 (hin b hb)
  have hp := (groupOn_partitions hk').perm (sortOn_perm (fun g => g.head?.map Prod.snd) _)
  refine ⟨fun g hg => groupByFirst_gathered hk hg, ?_, ?_, ?_⟩
  · intro g hg
    obtain ⟨numbered, hn, rfl⟩ := List.mem_map.mp hg
    simpa using hp.nonempty numbered hn
  · intro a ha
    obtain ⟨i, hi, rfl⟩ := List.mem_iff_getElem.mp ha
    have hz : (xs[i], i) ∈ xs.zipIdx := by simp [List.mem_zipIdx_iff_getElem?]
    obtain ⟨numbered, hn, hm⟩ := hp.covers _ hz
    exact ⟨numbered.map Prod.fst, List.mem_map_of_mem hn, List.mem_map_of_mem hm⟩
  · refine List.pairwise_map.mpr (hp.apart.imp ?_)
    intro g h hgh a ha b hb
    obtain ⟨x, hx, rfl⟩ := List.mem_map.mp ha
    obtain ⟨y, hy, rfl⟩ := List.mem_map.mp hb
    exact hgh x hx y hy

theorem findings?_partitions [Std.TransOrd κ] [Ranked κ] (hk : TellsApart key xs)
    {groups : List (List α)} (h : findings? key xs = some groups) : Partitions key xs groups := by
  unfold findings? at h
  split at h
  · cases h
    exact groupOn_partitions hk
  · exact (groupByFirst_partitions hk).perm (arrange?_perm h)

instance : Std.TransOrd DoubleLockKey :=
  inferInstanceAs (Std.TransCmp (compareLex (compareOn DoubleLockKey.first)
    (compareLex (compareOn DoubleLockKey.second) (compareOn DoubleLockKey.lockClass))))

instance : Std.TransOrd InversionKey :=
  inferInstanceAs (Std.TransCmp (compareLex (compareOn InversionKey.lower)
    (compareLex (compareOn InversionKey.upper) (compareOn InversionKey.locations))))

/-! ### One report for each key -/

theorem forall₂_filterMap {β γ : Type} {f : α → Option β} {g : α → Option γ} {R : β → γ → Prop}
    {ys : List α} (h : ∀ y ∈ ys, ∃ b c, f y = some b ∧ g y = some c ∧ R b c) :
    List.Forall₂ R (ys.filterMap f) (ys.filterMap g) := by
  induction ys with
  | nil => exact .nil
  | cons y ys ih =>
    obtain ⟨hy, hys⟩ := List.forall_mem_cons.mp h
    obtain ⟨b, c, hb, hc, hr⟩ := hy
    rw [List.filterMap_cons_some hb, List.filterMap_cons_some hc]
    exact .cons hr (ih hys)

/-- Where all occurrences of a key have a report that says the right thing of it, there is one report for
each key that occurs. -/
theorem Partitions.reported {groups : List (List α)} (h : Partitions key xs groups)
    {report? : List α → Option Report} {Says : κ → Report → Prop}
    (hr : ∀ k g, g ≠ [] → (∀ a, a ∈ g ↔ a ∈ xs ∧ key a = k) → ∃ r, report? g = some r ∧ Says k r) :
    ∃ keys : List κ, (∀ k, k ∈ keys ↔ ∃ a ∈ xs, key a = k) ∧ keys.Nodup ∧
      (groups.Pairwise (Ascends key) → keys.Pairwise fun k l => compare k l = .lt) ∧
      List.Forall₂ Says keys (groups.filterMap report?) := by
  have hfirst : ∀ {g : List α} {k : κ}, g.head?.map key = some k → ∃ a ∈ g, key a = k := by
    intro g k hk
    obtain ⟨a, ha, hkey⟩ := Option.map_eq_some_iff.mp hk
    exact ⟨a, List.mem_of_head? ha, hkey⟩
  refine ⟨groups.filterMap fun g => g.head?.map key, ?_, ?_, ?_, forall₂_filterMap ?_⟩
  · intro k
    rw [List.mem_filterMap]
    constructor
    · rintro ⟨g, hg, hk⟩
      obtain ⟨a, ha, rfl⟩ := hfirst hk
      exact ⟨a, (h.gathered g hg).1 a ha, rfl⟩
    · rintro ⟨a, ha, rfl⟩
      obtain ⟨g, hg, hag⟩ := h.covers a ha
      obtain ⟨b, rest, rfl⟩ := List.exists_cons_of_ne_nil (h.nonempty g hg)
      have hkey := (h.gathered _ hg).2 b List.mem_cons_self a hag
      exact ⟨_, hg, congrArg some hkey⟩
  · refine h.apart.filterMap _ ?_
    intro g g' hgg k hk k' hk'
    obtain ⟨a, ha, rfl⟩ := hfirst hk
    obtain ⟨b, hb, rfl⟩ := hfirst hk'
    exact hgg a ha b hb
  · intro hasc
    refine hasc.filterMap _ ?_
    intro g g' hgg k hk k' hk'
    obtain ⟨a, ha, rfl⟩ := hfirst hk
    obtain ⟨b, hb, rfl⟩ := hfirst hk'
    exact hgg a ha b hb
  · intro g hg
    obtain ⟨a, rest, rfl⟩ := List.exists_cons_of_ne_nil (h.nonempty g hg)
    obtain ⟨r, hrep, hsays⟩ := hr (key a) _ (List.cons_ne_nil a rest)
      fun b => h.mem_iff hg List.mem_cons_self
    exact ⟨key a, r, rfl, hrep, hsays⟩

/-! ### What merged occurrences come to -/

/-- The list has each chain that occurs once. Two spellings of the same names are one chain. -/
structure ListsChains (chains : List (List Name)) (Occurs : List Name → Prop) : Prop where
  occur : ∀ c ∈ chains, Occurs c
  complete : ∀ c, Occurs c → ∃ d ∈ chains, d.map Json.canonical = c.map Json.canonical
  once : (chains.map (List.map Json.canonical)).Nodup

theorem ListsChains.of_occurs {chains : List (List Name)} {Occurs Occurs' : List Name → Prop}
    (h : ListsChains chains Occurs) (hs : ∀ c, Occurs c → Occurs' c)
    (hc : ∀ c, Occurs' c → ∃ d, Occurs d ∧ d.map Json.canonical = c.map Json.canonical) :
    ListsChains chains Occurs' := by
  refine ⟨fun c hmem => hs c (h.occur c hmem), ?_, h.once⟩
  intro c hoccurs
  obtain ⟨d, hd, hdc⟩ := hc c hoccurs
  obtain ⟨e, he, hed⟩ := h.complete d hd
  exact ⟨e, he, hed.trans hdc⟩

theorem distinctChains_lists {α : Type} (os : List α) (chain : α → List Name) :
    ListsChains (distinctChains (os.map chain)) fun c => ∃ o ∈ os, chain o = c := by
  obtain ⟨hcovers, hnodup⟩ := eraseDupsBy_key (List.map Json.canonical) (os.map chain)
  refine ⟨?_, ?_, hnodup⟩
  · intro c hc
    exact List.mem_map.mp (mem_distinctChains hc)
  · rintro _ ⟨o, ho, rfl⟩
    exact hcovers _ (List.mem_map_of_mem ho)

theorem mergedPossibility_iff {grades : List Possibility} :
    mergedPossibility grades = .probably ↔ .probably ∈ grades := by
  constructor
  · exact mergedPossibility_eq_probably
  · intro h
    simp [mergedPossibility, h]

end Detection

end LockAudit
