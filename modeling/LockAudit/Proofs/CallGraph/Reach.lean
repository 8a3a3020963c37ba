import LockAudit.CallGraph.Reach
import LockAudit.Proofs.CallGraph.Resolution
import Mathlib.Data.List.Nodup
import Mathlib.Data.List.Perm.Subperm
import Mathlib.Logic.Relation

/-! # What calls lead to is reached

The nodes that are reached from a root are collected in rounds. Each round but the last adds a node, so
there are no more rounds than nodes, and what is collected then is closed under calls. With the right
descendants for each node, what is collected over several roots is closed under calls after every root, and
holds the nodes to which calls lead from one of them.
-/

namespace LockAudit.CallGraph

theorem among_iff {id : Name} {names : List Name} :
    among id names = true ↔ id.canonical ∈ names.map Json.canonical := by
  simp only [among, List.any_eq_true, List.mem_map, Name.same_iff]
  exact exists_congr fun _ => and_congr_right fun _ => eq_comm

theorem among_congr {a b : Name} (h : a.canonical = b.canonical) (names : List Name) :
    among a names = among b names := by
  rw [Bool.eq_iff_iff, among_iff, among_iff, h]

theorem among_append {id : Name} {xs ys : List Name} :
    among id (xs ++ ys) = true ↔ among id xs = true ∨ among id ys = true := by
  simp only [among_iff, List.map_append, List.mem_append]

theorem mem_successors {g : CallGraph} {caller id : Name} :
    id ∈ g.successors caller ↔ ∃ e ∈ g.edges, e.caller.same caller = true ∧ e.callee = id := by
  simp only [successors, List.mem_map, List.mem_filter, and_assoc]

/-- Whatever the instances in `border` call is reached already or found beyond them. -/
theorem among_beyond {g : CallGraph} {reached border : List Name} {caller callee : Name}
    (hcaller : among caller border = true) (hcalls : g.Calls caller callee)
    (hnew : among callee reached = false) : among callee (g.beyond reached border) = true := by
  obtain ⟨e, he, hecaller, hecallee⟩ := hcalls
  obtain ⟨x, hx, hxc⟩ := List.mem_map.mp (among_iff.mp hcaller)
  have hsucc : e.callee ∈ border.flatMap g.successors := by
    refine List.mem_flatMap.mpr ⟨x, hx, mem_successors.mpr ⟨e, he, ?_, rfl⟩⟩
    exact Name.same_iff.mpr ((Name.same_iff.mp hecaller).trans hxc.symm)
  have hcanonical := Name.same_iff.mp hecallee
  have hunreached : among e.callee reached = false := (among_congr hcanonical reached).trans hnew
  have hfresh : e.callee ∈ (border.flatMap g.successors).filter fun id => !among id reached :=
    List.mem_filter.mpr ⟨hsucc, by rw [hunreached]; rfl⟩
  obtain ⟨y, hy, hyc⟩ := (eraseDupsBy_key Json.canonical _).1 e.callee hfresh
  exact among_iff.mpr (List.mem_map.mpr ⟨y, hy, hyc.trans hcanonical⟩)

theorem mem_beyond {g : CallGraph} {reached border : List Name} {id : Name}
    (h : id ∈ g.beyond reached border) :
    among id reached = false ∧ ∃ caller ∈ border, g.Calls caller id := by
  obtain ⟨hsucc, hnew⟩ := List.mem_filter.mp (mem_of_mem_eraseDupsBy h)
  obtain ⟨caller, hborder, hcaller⟩ := List.mem_flatMap.mp hsucc
  obtain ⟨e, he, hsame, rfl⟩ := mem_successors.mp hcaller
  exact ⟨by simpa using hnew, caller, hborder, e, he, hsame, Name.same_self _⟩

structure Saturating (g : CallGraph) (reached border : List Name) : Prop where
  distinct : (reached.map Json.canonical).Nodup
  nodes : ∀ id ∈ reached, g.contains id = true
  closed : ∀ a b, among a reached = true → among a border = false → g.Calls a b →
    among b reached = true

variable {g : CallGraph} {reached border : List Name}

theorem Saturating.length_le (h : Saturating g reached border) :
    reached.length ≤ g.instances.length := by
  have hsub : reached.map Json.canonical ⊆ g.instances.map fun i => i.id.canonical := by
    intro x hx
    obtain ⟨id, hid, rfl⟩ := List.mem_map.mp hx
    obtain ⟨i, hi, hsame⟩ := contains_iff.mp (h.nodes id hid)
    exact List.mem_map.mpr ⟨i, hi, Name.same_iff.mp hsame⟩
  have hle := (List.subperm_of_subset h.distinct hsub).length_le
  simpa only [List.length_map] using hle

/-- One round: the successors of the border that are not reached yet become the border. -/
theorem Saturating.grow (hg : ∀ a b, g.Calls a b → g.contains b = true)
    (h : Saturating g reached border) :
    Saturating g (reached ++ g.beyond reached border) (g.beyond reached border) := by
  refine ⟨?_, ?_, ?_⟩
  · rw [List.map_append]
    refine h.distinct.append (eraseDupsBy_key Json.canonical _).2 ?_
    intro x hx hx'
    obtain ⟨id, hid, rfl⟩ := List.mem_map.mp hx'
    have hnew := (mem_beyond hid).1
    rw [among_iff.mpr hx] at hnew
    cases hnew
  · refine List.forall_mem_append.mpr ⟨h.nodes, fun id hid => ?_⟩
    obtain ⟨caller, _, hcalls⟩ := (mem_beyond hid).2
    exact hg caller id hcalls
  · intro a b ha hnew hcalls
    have hold : among a reached = true := by
      rcases among_append.mp ha with ha | ha
      · exact ha
      · rw [hnew] at ha
        cases ha
    refine among_append.mpr ?_
    cases hborder : among a border with
    | false => exact .inl (h.closed a b hold hborder hcalls)
    | true =>
      cases hb : among b reached with
      | true => exact .inl rfl
      | false => exact .inr (among_beyond hborder hcalls hb)

/-- With a round for every node, the closure keeps what was reached and has no border left. -/
theorem Saturating.closure (hg : ∀ a b, g.Calls a b → g.contains b = true) {rounds : Nat}
    (h : Saturating g reached border) (hr : g.instances.length < reached.length + rounds) :
    Saturating g (g.closure rounds reached border) [] ∧
      ∀ id, among id reached = true → among id (g.closure rounds reached border) = true := by
  induction rounds generalizing reached border with
  | zero =>
    have hle := h.length_le
    omega
  | succ rounds ih =>
    have hgrown := h.grow hg
    unfold CallGraph.closure
    split
    · rename_i hnone
      rw [hnone, List.append_nil] at hgrown
      exact ⟨hgrown, fun _ => id⟩
    · rename_i hsome
      have hpos : 0 < (g.beyond reached border).length := List.length_pos_iff.mpr hsome
      obtain ⟨hclosed, hkeeps⟩ := ih hgrown (by rw [List.length_append]; omega)
      exact ⟨hclosed, fun id hid => hkeeps id (among_append.mpr (.inl hid))⟩

/-- Calls lead from the root to everything in a closure that starts from such nodes. -/
theorem mem_closure {root : Name} {rounds : Nat}
    (hreached : ∀ id ∈ reached, Relation.ReflTransGen g.Calls root id) (hborder : border ⊆ reached) :
    ∀ id ∈ g.closure rounds reached border, Relation.ReflTransGen g.Calls root id := by
  induction rounds generalizing reached border with
  | zero => exact hreached
  | succ rounds ih =>
    unfold CallGraph.closure
    split
    · exact hreached
    · refine ih (List.forall_mem_append.mpr ⟨hreached, fun id hid => ?_⟩) (List.subset_append_right _ _)
      obtain ⟨_, caller, hcaller, hcalls⟩ := mem_beyond hid
      exact (hreached caller (hborder hcaller)).tail hcalls

theorem mem_reach {root id : Name} (h : id ∈ g.reach root) : Relation.ReflTransGen g.Calls root id := by
  refine mem_closure ?_ (List.Subset.refl _) id h
  simp only [List.mem_singleton, forall_eq]
  exact .refl

theorem among_reach (hg : ∀ a b, g.Calls a b → g.contains b = true) {root id : Name}
    (hroot : g.contains root = true) (h : Relation.ReflTransGen g.Calls root id) :
    among id (g.reach root) = true := by
  have hstart : Saturating g [root] [root] := by
    refine ⟨List.nodup_singleton _, by simpa using hroot, ?_⟩
    intro a b ha hborder
    rw [ha] at hborder
    cases hborder
  have hrounds : g.instances.length < [root].length + g.instances.length := by simp
  obtain ⟨hreach, hkeeps⟩ := hstart.closure hg hrounds
  induction h with
  | refl => exact hkeeps root (by simp [among])
  | tail _ hcalls ih => exact hreach.closed _ _ ih rfl hcalls

/-! ### Descendants -/

/-- The names given for a node are those to which calls lead from it, less its own. -/
def GivesDescendants (g : CallGraph) (descendants : Name → List Name) : Prop :=
  ∀ root, g.contains root = true → ∀ id, among id (descendants root) = true ↔
    Relation.TransGen g.Calls root id ∧ root.same id = false

theorem Calls.congr_right {a b c : Name} (h : g.Calls a b) (hbc : b.same c = true) : g.Calls a c := by
  obtain ⟨e, he, hcaller, hcallee⟩ := h
  exact ⟨e, he, hcaller, Name.same_trans hcallee hbc⟩

theorem transGen_congr_right {a b c : Name} (h : Relation.TransGen g.Calls a b) (hbc : b.same c = true) :
    Relation.TransGen g.Calls a c := by
  cases h with
  | single hcalls => exact .single (hcalls.congr_right hbc)
  | tail hab hcalls => exact .tail hab (hcalls.congr_right hbc)

/-- The search in rounds finds the descendants of every node. -/
theorem givesDescendants (hg : ∀ a b, g.Calls a b → g.contains b = true) :
    g.GivesDescendants g.descendants := by
  intro root hroot id
  have hamong : among id (g.descendants root) = true ↔
      ∃ n ∈ g.reach root, root.same n = false ∧ n.canonical = id.canonical := by
    simp only [among_iff, descendants, List.mem_map, List.mem_filter, Bool.not_eq_true', and_assoc]
  rw [hamong]
  constructor
  · rintro ⟨n, hn, hother, hsame⟩
    rcases Relation.reflTransGen_iff_eq_or_transGen.mp (mem_reach hn) with rfl | hlead
    · rw [Name.same_self] at hother
      cases hother
    · exact ⟨transGen_congr_right hlead (Name.same_iff.mpr hsame),
        (Name.same_congr rfl hsame).symm.trans hother⟩
  · rintro ⟨hlead, hother⟩
    obtain ⟨n, hn, hsame⟩ := List.mem_map.mp (among_iff.mp (among_reach hg hroot hlead.to_reflTransGen))
    exact ⟨n, hn, (Name.same_congr rfl hsame).trans hother, hsame⟩

/-! ### Several roots -/

theorem among_withNames {names new : List Name} {id : Name} :
    among id (withNames names new) = true ↔ among id names = true ∨ among id new = true := by
  rw [withNames, among_append]
  constructor
  · rintro (h | h)
    · exact .inl h
    · obtain ⟨n, hn, hsame⟩ := List.mem_map.mp (among_iff.mp h)
      have hnew := (List.mem_filter.mp (mem_of_mem_eraseDupsBy hn)).1
      exact .inr (among_iff.mpr (List.mem_map.mpr ⟨n, hnew, hsame⟩))
  · rintro (h | h)
    · exact .inl h
    · by_cases hold : among id names = true
      · exact .inl hold
      · obtain ⟨n, hn, hsame⟩ := List.mem_map.mp (among_iff.mp h)
        have hfresh : among n names = false :=
          (among_congr hsame names).trans (Bool.eq_false_iff.mpr hold)
        have hkept : n ∈ new.filter fun id => !among id names :=
          List.mem_filter.mpr ⟨hn, by rw [hfresh]; rfl⟩
        obtain ⟨m, hm, hmn⟩ := (eraseDupsBy_key Json.canonical _).1 n hkept
        exact .inr (among_iff.mpr (List.mem_map.mpr ⟨m, hm, hmn.trans hsame⟩))

theorem mem_of_mem_withNames {names new : List Name} {id : Name} (h : id ∈ withNames names new) :
    id ∈ names ∨ id ∈ new := by
  rcases List.mem_append.mp h with h | h
  · exact .inl h
  · exact .inr (List.mem_filter.mp (mem_of_mem_eraseDupsBy h)).1

theorem withNames_distinct {names : List Name} (h : (names.map Json.canonical).Nodup) (new : List Name) :
    ((withNames names new).map Json.canonical).Nodup := by
  rw [withNames, List.map_append]
  refine h.append (eraseDupsBy_key Json.canonical _).2 ?_
  intro x hx hx'
  obtain ⟨id, hid, rfl⟩ := List.mem_map.mp hx'
  have hnew := (List.mem_filter.mp (mem_of_mem_eraseDupsBy hid)).2
  simp [among_iff.mpr hx] at hnew

structure Collects (g : CallGraph) (roots names : List Name) : Prop where
  distinct : (names.map Json.canonical).Nodup
  sound : ∀ id ∈ names, ∃ root ∈ roots, g.contains root = true ∧ Relation.ReflTransGen g.Calls root id
  roots : ∀ root ∈ roots, g.contains root = true → among root names = true
  closed : ∀ a b, among a names = true → g.Calls a b → among b names = true

section Collects

variable {descendants : Name → List Name} (hd : g.GivesDescendants descendants)

include hd

theorem GivesDescendants.closed {root a b : Name} (hroot : g.contains root = true)
    (ha : among a (root :: descendants root) = true) (hcalls : g.Calls a b) :
    among b (root :: descendants root) = true := by
  have hlead : Relation.TransGen g.Calls root b := by
    simp only [among, List.any_cons, Bool.or_eq_true] at ha
    rcases ha with ha | ha
    · obtain ⟨e, he, hcaller, hcallee⟩ := hcalls
      exact .single ⟨e, he, Name.same_trans hcaller ha, hcallee⟩
    · exact ((hd root hroot a).mp ha).1.tail hcalls
  simp only [among, List.any_cons, Bool.or_eq_true]
  cases hself : root.same b with
  | true => exact .inl (Name.same_symm hself)
  | false => exact .inr ((hd root hroot b).mpr ⟨hlead, hself⟩)

theorem GivesDescendants.reaches {root id : Name} (hroot : g.contains root = true)
    (hid : id ∈ root :: descendants root) : Relation.ReflTransGen g.Calls root id := by
  rcases List.mem_cons.mp hid with rfl | hid
  · exact .refl
  · have hamong : among id (descendants root) = true := List.any_eq_true.mpr ⟨id, hid, Name.same_self id⟩
    exact ((hd root hroot id).mp hamong).1.to_reflTransGen

/-- One more root. A root that is reached already leads to nothing new, as what is reached is closed under
calls. -/
theorem Collects.addReached {roots names : List Name} (h : Collects g roots names) (root : Name) :
    Collects g (roots ++ [root]) (g.addReached descendants names root) := by
  have hsound : ∀ id ∈ names, ∃ r ∈ roots ++ [root], g.contains r = true ∧
      Relation.ReflTransGen g.Calls r id := by
    intro id hid
    obtain ⟨r, hr, hreach⟩ := h.sound id hid
    exact ⟨r, List.mem_append_left _ hr, hreach⟩
  unfold CallGraph.addReached
  split
  · rename_i hskip
    refine ⟨h.distinct, hsound, List.forall_mem_append.mpr ⟨h.roots, ?_⟩, h.closed⟩
    simp only [List.mem_singleton, forall_eq]
    intro hroot
    simpa [hroot] using hskip
  · rename_i hadd
    have hroot : g.contains root = true := by
      cases hc : g.contains root with
      | true => rfl
      | false => simp [hc] at hadd
    refine ⟨withNames_distinct h.distinct _, ?_, List.forall_mem_append.mpr ⟨?_, ?_⟩, ?_⟩
    · intro id hid
      rcases mem_of_mem_withNames hid with hid | hid
      · exact hsound id hid
      · exact ⟨root, by simp, hroot, hd.reaches hroot hid⟩
    · exact fun r hr hc => among_withNames.mpr (.inl (h.roots r hr hc))
    · simp only [List.mem_singleton, forall_eq]
      exact fun _ => among_withNames.mpr (.inr (by simp [among]))
    · intro a b ha hcalls
      refine among_withNames.mpr ?_
      rcases among_withNames.mp ha with ha | ha
      · exact .inl (h.closed a b ha hcalls)
      · exact .inr (hd.closed hroot ha hcalls)

theorem Collects.foldl {before names : List Name} (h : Collects g before names) (roots : List Name) :
    Collects g (before ++ roots) (roots.foldl (g.addReached descendants) names) := by
  induction roots generalizing before names with
  | nil => simpa using h
  | cons root roots ih => simpa using ih (h.addReached hd root)

theorem GivesDescendants.collects (roots : List Name) :
    Collects g roots (roots.foldl (g.addReached descendants) []) := by
  have hnone : Collects g [] [] := ⟨List.nodup_nil, by simp, by simp, fun _ _ ha => by cases ha⟩
  exact hnone.foldl hd roots

end Collects

def Reached (g : CallGraph) (roots : List Name) (id : Name) : Prop :=
  ∃ root ∈ roots, g.contains root = true ∧
    ∃ node, Relation.ReflTransGen g.Calls root node ∧ node.same id = true

/-- The nodes reached from the roots are those to which calls lead from one of them. -/
theorem GivesDescendants.among_reachableBy_iff {descendants : Name → List Name}
    (hd : g.GivesDescendants descendants) {roots : List Name} {id : Name} :
    among id (g.reachableBy descendants roots) = true ↔ g.Reached roots id := by
  have hall := hd.collects roots
  have hperm : among id (g.reachableBy descendants roots) =
      among id (roots.foldl (g.addReached descendants) []) := by
    rw [Bool.eq_iff_iff, among_iff, among_iff]
    exact ((orderOn_perm _ _).map Json.canonical).mem_iff
  rw [hperm]
  constructor
  · intro h
    obtain ⟨node, hnode, hsame⟩ := List.mem_map.mp (among_iff.mp h)
    obtain ⟨root, hroot, hcontains, hreach⟩ := hall.sound node hnode
    exact ⟨root, hroot, hcontains, node, hreach, Name.same_iff.mpr hsame⟩
  · rintro ⟨root, hroot, hcontains, node, hreach, hsame⟩
    have hnode : among node (roots.foldl (g.addReached descendants) []) = true := by
      clear hsame
      induction hreach with
      | refl => exact hall.roots root hroot hcontains
      | tail _ hcalls ih => exact hall.closed _ _ ih hcalls
    rwa [among_iff, Name.same_iff.mp hsame, ← among_iff] at hnode

theorem among_reachableFrom_iff (hg : ∀ a b, g.Calls a b → g.contains b = true) {roots : List Name}
    {id : Name} : among id (g.reachableFrom roots) = true ↔ g.Reached roots id :=
  (givesDescendants hg).among_reachableBy_iff

/-- What calls lead to from a root is among the nodes reached from it. -/
theorem among_reachableFrom (hg : ∀ a b, g.Calls a b → g.contains b = true) {root id : Name}
    (hroot : g.contains root = true) (h : Relation.ReflTransGen g.Calls root id) :
    among id (g.reachableFrom [root]) = true :=
  (among_reachableFrom_iff hg).mpr ⟨root, List.mem_singleton_self _, hroot, id, h, Name.same_self _⟩

end LockAudit.CallGraph
