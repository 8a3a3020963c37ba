import LockAudit.Proofs.BitRows
import LockAudit.Proofs.Detection.Partition
import Mathlib.Data.List.Perm.Subperm
import Mathlib.Data.List.Rotate

/-! # The search for cycles is exact

A search goes on from its first class only to classes from which it can still come back in time, and looks
only at edges that lie on cycles. It meets every simple cycle of at most the given length, from the smallest
class of the cycle. Any search that meets these cycles, from whatever classes and however often, leads
detection to the same cycles in the same order.
-/

namespace LockAudit.Detection

variable {edges : List (AliasClass × AliasClass)} {start : AliasClass}

abbrev Ordered (edges : List (AliasClass × AliasClass)) (a b : AliasClass) : Prop :=
  (a, b) ∈ edges

/-- Each class is ordered before the next, the last before the first, and none occurs twice. -/
structure IsCycle (edges : List (AliasClass × AliasClass)) (c : List AliasClass) : Prop where
  nodup : c.Nodup
  ordered : ∀ e ∈ cycleEdges c, e ∈ edges

def StartsSmallest (c : List AliasClass) : Prop :=
  ∀ a ∈ c.head?, ∀ b ∈ c, (compare a b).isLE = true

/-! ### Cycles as chains -/

theorem isChain_iff_zip {a b : AliasClass} {rest : List AliasClass} :
    (a :: rest ++ [b]).IsChain (Ordered edges) ↔ ∀ e ∈ (a :: rest).zip (rest ++ [b]), e ∈ edges := by
  induction rest generalizing a with
  | nil => simp
  | cons c rest ih =>
    rw [List.cons_append, List.cons_append, List.isChain_cons_cons, ← List.cons_append, ih]
    simp

theorem isCycle_cons {rest : List AliasClass} :
    IsCycle edges (start :: rest) ↔
      (start :: rest).Nodup ∧ (start :: rest ++ [start]).IsChain (Ordered edges) := by
  rw [isChain_iff_zip]
  exact ⟨fun h => ⟨h.nodup, h.ordered⟩, fun h => ⟨h.1, h.2⟩⟩

/-- On a cycle every class can be reached from every other. -/
theorem IsCycle.reaches {c : List AliasClass} (h : IsCycle edges c) {a b : AliasClass} (ha : a ∈ c)
    (hb : b ∈ c) : Relation.ReflTransGen (Ordered edges) a b := by
  cases c with
  | nil => cases ha
  | cons first rest =>
    have hchain : (first :: rest ++ [first]).Pairwise (Relation.ReflTransGen (Ordered edges)) :=
      ((isCycle_cons.mp h).2.imp fun _ _ => .single).pairwise
    have hback : Relation.ReflTransGen (Ordered edges) a first :=
      (List.pairwise_append.mp hchain).2.2 a ha first List.mem_cons_self
    have hforth : Relation.ReflTransGen (Ordered edges) first b := by
      rcases List.mem_cons.mp hb with rfl | hb
      · exact .refl
      · exact (List.pairwise_cons.mp hchain).1 b (List.mem_append_left _ hb)
    exact hback.trans hforth

theorem mem_of_mem_cycleEdges {c : List AliasClass} {e : AliasClass × AliasClass}
    (h : e ∈ cycleEdges c) : e.1 ∈ c ∧ e.2 ∈ c := by
  obtain ⟨hfirst, hsecond⟩ := List.of_mem_zip (a := e.1) (b := e.2) h
  refine ⟨hfirst, ?_⟩
  rcases List.mem_append.mp hsecond with hs | hs
  · exact List.mem_of_mem_drop hs
  · exact List.mem_of_mem_take hs

/-! ### Edges on cycles -/

theorem mem_orderedClasses {a : AliasClass} :
    a ∈ orderedClasses edges ↔ ∃ e ∈ edges, a = e.1 ∨ a = e.2 := by
  rw [orderedClasses, (sortOn_perm _ _).mem_iff, mem_distinct, List.mem_flatMap]
  simp only [List.mem_pair]

theorem mem_edgesOnCycles {e : AliasClass × AliasClass} :
    e ∈ edgesOnCycles edges ↔ e ∈ edges ∧ Relation.TransGen (Ordered edges) e.2 e.1 := by
  have hends : ∀ e ∈ edges, e.1 ∈ orderedClasses edges ∧ e.2 ∈ orderedClasses edges := fun e he =>
    ⟨mem_orderedClasses.mpr ⟨e, he, .inl rfl⟩, mem_orderedClasses.mpr ⟨e, he, .inr rfl⟩⟩
  rw [edgesOnCycles, List.mem_filter]
  constructor
  · rintro ⟨he, hleads⟩
    exact ⟨he, (BitRows.leads_closure_ofEdges hends (hends e he).2 (hends e he).1).mp hleads⟩
  · rintro ⟨he, hreach⟩
    exact ⟨he, (BitRows.leads_closure_ofEdges hends (hends e he).2 (hends e he).1).mpr hreach⟩

theorem isCycle_edgesOnCycles {c : List AliasClass} :
    IsCycle (edgesOnCycles edges) c ↔ IsCycle edges c := by
  constructor
  · intro h
    exact ⟨h.nodup, fun e he => (mem_edgesOnCycles.mp (h.ordered e he)).1⟩
  · intro h
    refine ⟨h.nodup, fun e he => mem_edgesOnCycles.mpr ⟨h.ordered e he, ?_⟩⟩
    obtain ⟨hfirst, hsecond⟩ := mem_of_mem_cycleEdges he
    rcases Relation.reflTransGen_iff_eq_or_transGen.mp (h.reaches hsecond hfirst) with heq | hreach
    · -- A class before itself is a way back of one edge.
      have hself : (e.1, e.2) ∈ edges := h.ordered e he
      rw [heq] at hself ⊢
      exact .single hself
    · exact hreach

/-! ### Classes on the way back -/

theorem mem_classesAfter {a b : AliasClass} : b ∈ classesAfter edges a ↔ (a, b) ∈ edges := by
  rw [classesAfter, (sortOn_perm _ _).mem_iff]
  simp

theorem OrderTable.mem_after {keys : List AliasClass} {f : AliasClass → List AliasClass}
    {a b : AliasClass} :
    b ∈ OrderTable.after (keys.map fun c => (c, f c)) a ↔ a ∈ keys ∧ b ∈ f a := by
  induction keys with
  | nil => simp [OrderTable.after]
  | cons k keys ih =>
    by_cases h : k = a
    · subst h
      simp [OrderTable.after]
    · have hne : ¬ a = k := fun he => h he.symm
      simpa [OrderTable.after, h, hne] using ih

/-- At most the given number of edges lead from the class to `start`, with `start` itself only at the
end. -/
def Homing (edges : List (AliasClass × AliasClass)) (start : AliasClass) : Nat → AliasClass → Prop
  | 0, _ => False
  | n + 1, c => c ≠ start ∧ ∃ d, (c, d) ∈ edges ∧ (d = start ∨ Homing edges start n d)

theorem Homing.succ {n : Nat} {c : AliasClass} (h : Homing edges start n c) :
    Homing edges start (n + 1) c := by
  induction n generalizing c with
  | zero => cases h
  | succ n ih =>
    obtain ⟨hne, d, hd, hhome⟩ := h
    exact ⟨hne, d, hd, hhome.imp_right ih⟩

theorem mem_classesBefore {n : Nat} {near : List AliasClass}
    (h : ∀ c, c ∈ near ↔ Homing edges start n c) (c : AliasClass) :
    c ∈ classesBefore edges start near ↔ Homing edges start (n + 1) c := by
  simp only [classesBefore, List.mem_eraseDups, List.mem_map, List.mem_filter, Bool.and_eq_true,
    bne_iff_ne, Bool.or_eq_true, beq_iff_eq, List.contains_iff_mem, h, Homing]
  constructor
  · rintro ⟨⟨_, d⟩, ⟨he, hne, hhome⟩, rfl⟩
    exact ⟨hne, d, he, hhome⟩
  · rintro ⟨hne, d, he, hhome⟩
    exact ⟨(c, d), ⟨he, hne, hhome⟩, rfl⟩

theorem classesBefore_nodup (near : List AliasClass) : (classesBefore edges start near).Nodup := by
  have h := (eraseDupsBy_key id ((edges.filter fun e =>
    e.1 != start && (e.2 == start || near.contains e.2)).map Prod.fst)).2
  rwa [List.map_id] at h

/-- One more edge adds one more list of classes, also where the search sees that none are added. -/
theorem homeward_succ (edges : List (AliasClass × AliasClass)) (start : AliasClass) :
    ∀ n, ∃ near, homeward edges start (n + 1) = near :: homeward edges start n ∧ near.Nodup ∧
      ∀ c, c ∈ near ↔ Homing edges start (n + 1) c
  | 0 => ⟨_, rfl, classesBefore_nodup _, mem_classesBefore fun c => by simp [Homing]⟩
  | 1 => by
    obtain ⟨near, hnear, _, hmem⟩ := homeward_succ edges start 0
    have hone : homeward edges start 1 = [near] := hnear
    refine ⟨classesBefore edges start near, ?_, classesBefore_nodup _, mem_classesBefore hmem⟩
    rw [homeward, hone]
  | n + 2 => by
    obtain ⟨nearer, hnearer, hnodup', hmem'⟩ := homeward_succ edges start n
    obtain ⟨near, hnear, hnodup, hmem⟩ := homeward_succ edges start (n + 1)
    rw [homeward, hnear, hnearer]
    dsimp only
    refine ⟨_, rfl, ?_⟩
    split
    · rename_i hlength
      have hsubset : nearer ⊆ near := fun c hc => (hmem c).mpr ((hmem' c).mp hc).succ
      have hperm : nearer.Perm near :=
        (List.subperm_of_subset hnodup' hsubset).perm_of_length_le hlength.le
      -- Two lists of the same classes: the next one, which depends on them, is the same again.
      have hstable : ∀ c, c ∈ near ↔ Homing edges start (n + 1) c := fun c =>
        hperm.mem_iff.symm.trans (hmem' c)
      refine ⟨hnodup, fun c => ?_⟩
      rw [hmem, ← mem_classesBefore hstable, mem_classesBefore hmem]
    · exact ⟨classesBefore_nodup _, mem_classesBefore hmem⟩

theorem homing_of_isChain {c : AliasClass} {cs : List AliasClass} {n : Nat}
    (hchain : (c :: cs ++ [start]).IsChain (Ordered edges)) (hstart : start ∉ c :: cs)
    (hlength : cs.length < n) : Homing edges start n c := by
  induction cs generalizing c n with
  | nil =>
    obtain ⟨n, rfl⟩ := Nat.exists_eq_succ_of_ne_zero (Nat.ne_zero_of_lt hlength)
    have hedge : (c, start) ∈ edges := by simpa using hchain
    exact ⟨fun h => hstart (h ▸ List.mem_cons_self), start, hedge, .inl rfl⟩
  | cons d cs ih =>
    obtain ⟨n, rfl⟩ := Nat.exists_eq_succ_of_ne_zero (Nat.ne_zero_of_lt hlength)
    obtain ⟨hedge, hrest⟩ := List.isChain_cons_cons.mp hchain
    obtain ⟨hne, hout⟩ := List.ne_and_not_mem_of_not_mem_cons hstart
    exact ⟨fun h => hne h.symm, d, hedge, .inr (ih hrest hout (Nat.lt_of_succ_lt_succ hlength))⟩

/-! ### The search from one class -/

def Extends (table : OrderTable) (start : AliasClass) :
    List (List AliasClass) → List AliasClass → List AliasClass → Prop
  | _, trail, [] => start ∈ table.after (trail.headD start)
  | [], _, _ :: _ => False
  | allowed :: rest, trail, c :: cs =>
    (c ∈ table.after (trail.headD start) ∧ c ∈ allowed ∧ c ∉ trail) ∧
      Extends table start rest (c :: trail) cs

/-- The search lists the ways in which its trail can be extended to a cycle, and no others. -/
theorem mem_cyclesFrom {table : OrderTable} {ways : List (List AliasClass)}
    {trail c : List AliasClass} :
    c ∈ cyclesFrom table start ways trail ↔
      ∃ cs, c = trail.reverse ++ cs ∧ Extends table start ways trail cs := by
  have here : ∀ trail : List AliasClass,
      c ∈ (if (table.after (trail.headD start)).contains start then [trail.reverse] else []) ↔
        c = trail.reverse ∧ start ∈ table.after (trail.headD start) := by
    intro trail
    split <;> simp_all
  induction ways generalizing trail with
  | nil =>
    rw [cyclesFrom, here]
    constructor
    · rintro ⟨rfl, h⟩
      exact ⟨[], (List.append_nil _).symm, h⟩
    · rintro ⟨cs, rfl, h⟩
      cases cs with
      | nil => exact ⟨List.append_nil _, h⟩
      | cons d cs => cases h
  | cons allowed rest ih =>
    rw [cyclesFrom, List.mem_append, here]
    simp only [List.mem_flatMap, List.mem_filter, Bool.and_eq_true, Bool.not_eq_true',
      List.contains_iff_mem, ← Bool.not_eq_true, ih, List.reverse_cons, List.append_assoc,
      List.singleton_append]
    constructor
    · rintro (⟨rfl, h⟩ | ⟨d, ⟨hafter, hallowed, hnew⟩, cs, rfl, h⟩)
      · exact ⟨[], (List.append_nil _).symm, h⟩
      · exact ⟨d :: cs, rfl, ⟨hafter, hallowed, hnew⟩, h⟩
    · rintro ⟨cs, rfl, h⟩
      cases cs with
      | nil => exact .inl ⟨List.append_nil _, h⟩
      | cons d cs => exact .inr ⟨d, h.1, cs, rfl, h.2⟩

/-- What the search adds to its trail is a simple way back to the start within the bound. -/
theorem Extends.isChain {table : OrderTable} (htable : ∀ a b, b ∈ table.after a → (a, b) ∈ edges)
    {ways : List (List AliasClass)} {t : AliasClass} {trail cs : List AliasClass}
    (h : Extends table start ways (t :: trail) cs) (hnodup : (t :: trail).Nodup) :
    cs.length ≤ ways.length ∧ ((t :: trail).reverse ++ cs).Nodup ∧
      (t :: cs ++ [start]).IsChain (Ordered edges) := by
  induction cs generalizing ways t trail with
  | nil =>
    have hback : start ∈ table.after t := by
      cases ways <;> exact h
    refine ⟨Nat.zero_le _, ?_, ?_⟩
    · rwa [List.append_nil, List.nodup_reverse]
    · exact .cons_cons (htable _ _ hback) (.singleton _)
  | cons c cs ih =>
    cases ways with
    | nil => cases h
    | cons allowed rest =>
      obtain ⟨⟨hafter, _, hnew⟩, hrest⟩ := h
      obtain ⟨hlength, hn, hchain⟩ := ih hrest (List.nodup_cons.mpr ⟨hnew, hnodup⟩)
      refine ⟨Nat.succ_le_succ hlength, ?_, .cons_cons (htable _ _ hafter) hchain⟩
      simpa using hn

/-- A simple way back to the start is never cut off, as each of its classes leads home in time. -/
theorem extends_of_isChain {table : OrderTable} {t : AliasClass} {trail cs : List AliasClass} {n : Nat}
    (htable : ∀ a ∈ t :: cs, ∀ b, (a, b) ∈ edges → b ∈ table.after a)
    (hchain : (t :: cs ++ [start]).IsChain (Ordered edges)) (hnodup : ((t :: trail).reverse ++ cs).Nodup)
    (hstart : start ∈ t :: trail) (hlength : cs.length ≤ n) :
    Extends table start (homeward edges start n) (t :: trail) cs := by
  induction cs generalizing t trail n with
  | nil =>
    have hback : (t, start) ∈ edges := by simpa using hchain
    cases homeward edges start n <;> exact htable t List.mem_cons_self _ hback
  | cons c cs ih =>
    obtain ⟨n, rfl⟩ := Nat.exists_eq_succ_of_ne_zero (Nat.ne_zero_of_lt hlength)
    obtain ⟨near, hnear, _, hmem⟩ := homeward_succ edges start n
    obtain ⟨hedge, hrest⟩ := List.isChain_cons_cons.mp hchain
    obtain ⟨_, hcs, hdisjoint⟩ := List.nodup_append.mp hnodup
    have hnew : c ∉ t :: trail := fun hm => hdisjoint c (List.mem_reverse.mpr hm) c List.mem_cons_self rfl
    have hout : start ∉ c :: cs := fun hm => hdisjoint start (List.mem_reverse.mpr hstart) start hm rfl
    have hhoming : Homing edges start (n + 1) c := homing_of_isChain hrest hout hlength
    rw [hnear]
    refine ⟨⟨htable t List.mem_cons_self c hedge, (hmem c).mpr hhoming, hnew⟩, ?_⟩
    refine ih (fun a ha => htable a (List.mem_cons_of_mem _ ha)) hrest ?_ ?_ ?_
    · simpa using hnodup
    · exact List.mem_cons_of_mem _ hstart
    · exact Nat.le_of_succ_le_succ hlength

theorem length_homeward (edges : List (AliasClass × AliasClass)) (start : AliasClass) (n : Nat) :
    (homeward edges start n).length = n := by
  induction n with
  | zero => rfl
  | succ n ih =>
    obtain ⟨near, hnear, _⟩ := homeward_succ edges start n
    rw [hnear, List.length_cons, ih]

/-- Every class on a way back to the start comes back to it in time. -/
theorem mem_headD_homeward {cs : List AliasClass} {n : Nat}
    (hchain : (start :: cs ++ [start]).IsChain (Ordered edges)) (hnodup : (start :: cs).Nodup)
    (hlength : cs.length ≤ n) {a : AliasClass} (ha : a ∈ cs) : a ∈ (homeward edges start n).headD [] := by
  obtain ⟨before, after, rfl⟩ := List.append_of_mem ha
  simp only [List.length_append, List.length_cons] at hlength
  obtain ⟨n, rfl⟩ := Nat.exists_eq_succ_of_ne_zero (n := n) (by omega)
  obtain ⟨near, hnear, _, hmem⟩ := homeward_succ edges start n
  have hsuffix : (a :: after ++ [start]).IsChain (Ordered edges) := by
    have hsplit : start :: (before ++ a :: after) ++ [start] =
        (start :: before) ++ (a :: after ++ [start]) := by simp
    rw [hsplit] at hchain
    exact hchain.right_of_append
  rw [hnear, List.headD_cons]
  refine (hmem a).mpr (homing_of_isChain hsuffix ?_ (by omega))
  exact fun hm => (List.nodup_cons.mp hnodup).1 (List.mem_append_right _ hm)

/-- From one class, the search finds the cycles of which it is the smallest. -/
theorem mem_cyclesAt {room : Nat} {c : List AliasClass} :
    c ∈ cyclesAt edges room start ↔
      c.length ≤ room + 1 ∧ c.head? = some start ∧ IsCycle (edgesAbove edges start) c := by
  simp only [cyclesAt, mem_cyclesFrom, List.reverse_singleton, List.singleton_append]
  constructor
  · rintro ⟨cs, rfl, h⟩
    obtain ⟨hroom, hnodup, hchain⟩ := h.isChain (fun a b hb =>
      (mem_classesAfter.mp (OrderTable.mem_after.mp hb).2 : (a, b) ∈ edgesAbove edges start))
      (List.nodup_singleton start)
    rw [length_homeward] at hroom
    exact ⟨Nat.succ_le_succ hroom, rfl, isCycle_cons.mpr ⟨hnodup, hchain⟩⟩
  · rintro ⟨hroom, hhead, h⟩
    obtain ⟨cs, rfl⟩ := List.head?_eq_some_iff.mp hhead
    obtain ⟨hnodup, hchain⟩ := isCycle_cons.mp h
    have hcs : cs.length ≤ room := Nat.le_of_succ_le_succ hroom
    refine ⟨cs, rfl, extends_of_isChain ?_ hchain hnodup List.mem_cons_self hcs⟩
    intro a ha b hb
    refine OrderTable.mem_after.mpr ⟨?_, mem_classesAfter.mpr hb⟩
    exact List.mem_cons.mpr ((List.mem_cons.mp ha).imp_right (mem_headD_homeward hchain hnodup hcs))

/-! ### All cycles -/

theorem map_fst_cycleEdges (c : List AliasClass) : (cycleEdges c).map Prod.fst = c := by
  refine List.map_fst_zip ?_
  simp only [List.length_append, List.length_drop, List.length_take]
  omega

theorem mem_edgesAbove {e : AliasClass × AliasClass} :
    e ∈ edgesAbove edges start ↔
      e ∈ edges ∧ (compare start e.1).isLE = true ∧ (compare start e.2).isLE = true := by
  rw [edgesAbove, List.mem_filter, Bool.and_eq_true]

theorem isCycle_edgesAbove {c : List AliasClass} (h : c.head? = some start) :
    IsCycle (edgesAbove edges start) c ↔ IsCycle edges c ∧ StartsSmallest c := by
  constructor
  · intro hc
    refine ⟨⟨hc.nodup, fun e he => (mem_edgesAbove.mp (hc.ordered e he)).1⟩, ?_⟩
    intro a ha b hb
    obtain rfl : start = a := Option.some.inj (h.symm.trans ha)
    rw [← map_fst_cycleEdges c] at hb
    obtain ⟨e, he, rfl⟩ := List.mem_map.mp hb
    exact (mem_edgesAbove.mp (hc.ordered e he)).2.1
  · rintro ⟨hc, hsmallest⟩
    refine ⟨hc.nodup, fun e he => mem_edgesAbove.mpr ⟨hc.ordered e he, ?_⟩⟩
    obtain ⟨hfirst, hsecond⟩ := mem_of_mem_cycleEdges he
    exact ⟨hsmallest start h _ hfirst, hsmallest start h _ hsecond⟩

theorem IsCycle.mem_orderedClasses {c : List AliasClass} (h : IsCycle edges c) {a : AliasClass}
    (ha : a ∈ c) : a ∈ orderedClasses edges := by
  rw [← map_fst_cycleEdges c] at ha
  obtain ⟨e, he, rfl⟩ := List.mem_map.mp ha
  exact Detection.mem_orderedClasses.mpr ⟨e, h.ordered e he, .inl rfl⟩

theorem isCycle_of_mem_simpleCycles {bound : Nat} {c : List AliasClass} (h : c ∈ simpleCycles edges bound) :
    IsCycle edges c ∧ StartsSmallest c := by
  obtain ⟨start, _, hc⟩ := List.mem_flatMap.mp h
  obtain ⟨_, hhead, hcycle⟩ := mem_cyclesAt.mp hc
  exact ((isCycle_edgesAbove hhead).mp hcycle).imp_left isCycle_edgesOnCycles.mp

/-- The search finds the simple cycles of at most `bound` classes, each from its smallest class. -/
theorem mem_simpleCycles {bound : Nat} (hbound : 0 < bound) {c : List AliasClass} :
    c ∈ simpleCycles edges bound ↔
      c ≠ [] ∧ c.length ≤ bound ∧ IsCycle edges c ∧ StartsSmallest c := by
  constructor
  · intro h
    obtain ⟨start, _, hc⟩ := List.mem_flatMap.mp h
    obtain ⟨hroom, hhead, _⟩ := mem_cyclesAt.mp hc
    refine ⟨?_, by omega, isCycle_of_mem_simpleCycles h⟩
    rintro rfl
    cases hhead
  · rintro ⟨hne, hlength, hcycle, hsmallest⟩
    have hkept := isCycle_edgesOnCycles.mpr hcycle
    have hclasses : c.length ≤ (orderedClasses (edgesOnCycles edges)).length :=
      (List.subperm_of_subset hcycle.nodup fun _ => hkept.mem_orderedClasses).length_le
    obtain ⟨start, rest, rfl⟩ := List.exists_cons_of_ne_nil hne
    refine List.mem_flatMap.mpr ⟨start, hkept.mem_orderedClasses List.mem_cons_self, ?_⟩
    exact mem_cyclesAt.mpr ⟨by omega, rfl, (isCycle_edgesAbove rfl).mpr ⟨hkept, hsmallest⟩⟩

def EdgesKeyed (edges : List (AliasClass × AliasClass)) : Prop :=
  ∀ e ∈ edges, e.1.IsKeyed ∧ e.2.IsKeyed

theorem IsCycle.isKeyed {c : List AliasClass} (h : IsCycle edges c) (hk : EdgesKeyed edges)
    {a : AliasClass} (ha : a ∈ c) : a.IsKeyed := by
  rw [← map_fst_cycleEdges c] at ha
  obtain ⟨e, he, rfl⟩ := List.mem_map.mp ha
  exact (hk e (h.ordered e he)).1

/-! ### Cycles up to where they start -/

theorem cycleEdges_eq_zip_rotate (c : List AliasClass) : cycleEdges c = c.zip (c.rotate 1) := by
  cases c with
  | nil => rfl
  | cons a rest => rw [cycleEdges, List.rotate_eq_drop_append_take (Nat.succ_le_succ (Nat.zero_le _))]

theorem cycleEdges_rotate (c : List AliasClass) (n : Nat) :
    cycleEdges (c.rotate n) = (cycleEdges c).rotate n := by
  rw [cycleEdges_eq_zip_rotate, cycleEdges_eq_zip_rotate, List.rotate_rotate, Nat.add_comm,
    ← List.rotate_rotate]
  exact (List.zipWith_rotate_distrib _ _ _ _ (List.length_rotate _ _).symm).symm

theorem IsCycle.of_isRotated {c d : List AliasClass} (h : IsCycle edges c) (hcd : c ~r d) :
    IsCycle edges d := by
  obtain ⟨n, rfl⟩ := hcd
  refine ⟨List.nodup_rotate.mpr h.nodup, fun e he => h.ordered e ?_⟩
  rwa [cycleEdges_rotate, List.mem_rotate] at he

theorem smallest_mem (a : AliasClass) (rest : List AliasClass) : smallest a rest ∈ a :: rest := by
  induction rest generalizing a with
  | nil => exact List.mem_cons_self
  | cons b rest ih =>
    rw [smallest]
    split
    · exact List.mem_cons_of_mem _ (ih b)
    · rcases List.mem_cons.mp (ih a) with h | h
      · exact List.mem_cons.mpr (.inl h)
      · exact List.mem_cons_of_mem _ (List.mem_cons_of_mem _ h)

theorem smallest_isLE (a : AliasClass) (rest : List AliasClass) :
    ∀ b ∈ a :: rest, (compare (smallest a rest) b).isLE = true := by
  induction rest generalizing a with
  | nil =>
    simp only [smallest, List.mem_singleton, forall_eq, Std.ReflOrd.compare_self]
    rfl
  | cons c rest ih =>
    rw [smallest]
    intro b hb
    split
    · rename_i hlt
      have hca : (compare c a).isLE = true := Ordering.isLE_of_eq_lt (Ordering.isLT_iff_eq_lt.mp hlt)
      rcases List.mem_cons.mp hb with rfl | hb
      · exact Std.TransOrd.isLE_trans (ih c c List.mem_cons_self) hca
      · exact ih c b hb
    · rename_i hnot
      have hac : (compare a c).isLE = true := by
        rw [Std.OrientedOrd.eq_swap]
        cases hcmp : compare c a <;> simp_all
      rcases List.mem_cons.mp hb with rfl | hb
      · exact ih b b List.mem_cons_self
      · rcases List.mem_cons.mp hb with rfl | hb
        · exact Std.TransOrd.isLE_trans (ih a a List.mem_cons_self) hac
        · exact ih a b (List.mem_cons_of_mem _ hb)

theorem fromSmallest_isRotated (c : List AliasClass) : c ~r fromSmallest c := by
  cases c with
  | nil => exact .refl []
  | cons a rest =>
    have hlength := (List.idxOf_lt_length_iff.mpr (smallest_mem a rest)).le
    exact ⟨_, List.rotate_eq_drop_append_take hlength⟩

theorem startsSmallest_fromSmallest (c : List AliasClass) : StartsSmallest (fromSmallest c) := by
  cases c with
  | nil => exact fun _ h => by cases h
  | cons a rest =>
    have hlt := List.idxOf_lt_length_iff.mpr (smallest_mem a rest)
    have hhead : (fromSmallest (a :: rest)).head? = some (smallest a rest) := by
      rw [fromSmallest, List.drop_eq_getElem_cons hlt, List.cons_append, List.head?_cons,
        List.getElem_idxOf]
    intro b hb d hd
    obtain rfl : smallest a rest = b := Option.some.inj (hhead.symm.trans hb)
    exact smallest_isLE a rest d ((fromSmallest_isRotated _).mem_iff.mpr hd)

/-- Of the rotations of a cycle only one starts with its smallest class. -/
theorem StartsSmallest.eq_of_isRotated {c d : List AliasClass} (hk : ∀ a ∈ c, a.IsKeyed)
    (hn : c.Nodup) (hc : StartsSmallest c) (hd : StartsSmallest d) (h : c ~r d) : c = d := by
  cases c with
  | nil => exact List.isRotated_nil_iff'.mp h
  | cons a rest =>
    obtain ⟨n, rfl⟩ := h
    rw [← List.rotate_mod] at hd ⊢
    have hlt : n % (a :: rest).length < (a :: rest).length := Nat.mod_lt _ (Nat.succ_pos _)
    generalize n % (a :: rest).length = m at hd hlt ⊢
    have hmem : (a :: rest)[m] ∈ a :: rest := List.getElem_mem hlt
    have hhead : (a :: rest)[m] ∈ ((a :: rest).rotate m).head? := by
      rw [List.head?_rotate hlt, List.getElem?_eq_getElem hlt]
      exact rfl
    have hle := hc a rfl _ hmem
    have hge := hd _ hhead a (List.mem_rotate.mpr List.mem_cons_self)
    have heq : compare a (a :: rest)[m] = .eq := by
      rw [Std.OrientedOrd.eq_swap] at hge
      cases hcmp : compare a (a :: rest)[m] <;> simp_all
    have hsame : (a :: rest)[0] = (a :: rest)[m] :=
      AliasClass.eq_of_compare (hk a List.mem_cons_self) (hk _ hmem) heq
    obtain rfl : 0 = m := (List.Nodup.getElem_inj_iff hn).mp hsame
    rw [List.rotate_zero]

/-! ### Searches -/

/-- These are the simple cycles of at most `bound` classes, listed from any of their classes. A cycle may be
listed more than once. -/
structure ListsSimpleCycles (edges : List (AliasClass × AliasClass)) (bound : Nat)
    (found : List (List AliasClass)) : Prop where
  sound : ∀ c ∈ found, c ≠ [] ∧ c.length ≤ bound ∧ IsCycle edges c
  complete : ∀ c, c ≠ [] → c.length ≤ bound → IsCycle edges c → ∃ d ∈ found, d ~r c

/-- The search lists the simple cycles of every order, within a bound that allows longer ones than
inversions. -/
def CycleSearch.Exact (search : CycleSearch) : Prop :=
  ∀ edges bound, 3 ≤ bound → ListsSimpleCycles edges bound (search edges bound)

/-- The search that detection runs with is exact. -/
theorem simpleCycles_exact : CycleSearch.Exact simpleCycles := by
  intro edges bound hbound
  have hpos : 0 < bound := by omega
  refine ⟨fun c hc => ?_, fun c hne hlength hcycle => ?_⟩
  · obtain ⟨hne, hlength, hcycle, _⟩ := (mem_simpleCycles hpos).mp hc
    exact ⟨hne, hlength, hcycle⟩
  · have hrotated := fromSmallest_isRotated c
    refine ⟨fromSmallest c, (mem_simpleCycles hpos).mpr ⟨?_, ?_, ?_, ?_⟩, hrotated.symm⟩
    · exact fun h => hne (List.isRotated_nil_iff.mp (h ▸ hrotated))
    · rwa [← hrotated.perm.length_eq]
    · exact hcycle.of_isRotated hrotated
    · exact startsSmallest_fromSmallest c

variable {bound : Nat} {search : CycleSearch} {c : List AliasClass}

theorem mem_cycles : c ∈ cycles edges bound search ↔
    ∃ d ∈ search edges bound, 3 ≤ d.length ∧ fromSmallest d = c := by
  rw [cycles, (sortOn_perm _ _).mem_iff, mem_distinct, List.mem_map]
  simp only [List.mem_filter, decide_eq_true_eq, and_assoc]

theorem three_le_of_mem_cycles (h : c ∈ cycles edges bound search) : 3 ≤ c.length := by
  obtain ⟨d, _, hthree, rfl⟩ := mem_cycles.mp h
  rwa [← (fromSmallest_isRotated d).perm.length_eq]

theorem ListsSimpleCycles.of_mem_cycles (h : ListsSimpleCycles edges bound (search edges bound))
    (hc : c ∈ cycles edges bound search) :
    3 ≤ c.length ∧ c.length ≤ bound ∧ IsCycle edges c ∧ StartsSmallest c := by
  refine ⟨three_le_of_mem_cycles hc, ?_⟩
  obtain ⟨d, hd, _, rfl⟩ := mem_cycles.mp hc
  obtain ⟨_, hlength, hcycle⟩ := h.sound d hd
  have hrotated := fromSmallest_isRotated d
  rw [← hrotated.perm.length_eq]
  exact ⟨hlength, hcycle.of_isRotated hrotated, startsSmallest_fromSmallest d⟩

theorem ListsSimpleCycles.mem_cycles_iff (h : ListsSimpleCycles edges bound (search edges bound))
    (hk : EdgesKeyed edges) : c ∈ cycles edges bound search ↔
      3 ≤ c.length ∧ c.length ≤ bound ∧ IsCycle edges c ∧ StartsSmallest c := by
  refine ⟨h.of_mem_cycles, ?_⟩
  rintro ⟨hthree, hlength, hcycle, hsmallest⟩
  have hne : c ≠ [] := by
    rintro rfl
    cases hthree
  obtain ⟨d, hd, hrotated⟩ := h.complete c hne hlength hcycle
  refine mem_cycles.mpr ⟨d, hd, hrotated.perm.length_eq ▸ hthree, ?_⟩
  exact (hsmallest.eq_of_isRotated (fun a ha => hcycle.isKeyed hk ha) hcycle.nodup
    (startsSmallest_fromSmallest d) (hrotated.symm.trans (fromSmallest_isRotated d))).symm

theorem ListsSimpleCycles.cycles_ascending (h : ListsSimpleCycles edges bound (search edges bound))
    (hk : EdgesKeyed edges) : (cycles edges bound search).Pairwise fun c d => compare c d = .lt := by
  have hcycle : ∀ x ∈ cycles edges bound search, IsCycle edges x := fun x hx => (h.of_mem_cycles hx).2.2.1
  refine sortOn_rising (fun c hc d hd heq => ?_) (by simpa using nodup_distinct _)
  have hc := hcycle c ((sortOn_perm _ _).mem_iff.mpr hc)
  have hd := hcycle d ((sortOn_perm _ _).mem_iff.mpr hd)
  exact eq_of_compare_lists
    (fun a ha b hb => AliasClass.eq_of_compare (hc.isKeyed hk ha) (hd.isKeyed hk hb)) heq

/-- Two searches that list the simple cycles lead to the same cycles. -/
theorem ListsSimpleCycles.cycles_eq {search' : CycleSearch}
    (h : ListsSimpleCycles edges bound (search edges bound))
    (h' : ListsSimpleCycles edges bound (search' edges bound)) (hk : EdgesKeyed edges) :
    cycles edges bound search = cycles edges bound search' :=
  eq_of_rising id (h.cycles_ascending hk) (h'.cycles_ascending hk) fun _ =>
    (h.mem_cycles_iff hk).trans (h'.mem_cycles_iff hk).symm

end LockAudit.Detection
