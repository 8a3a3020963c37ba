import LockAudit.Proofs.BitRows
import LockAudit.Proofs.CallGraph.Construction
import Mathlib.Data.List.Pairwise

/-! # What is reached, and what calls itself

In a graph whose edges join nodes, the instances reached from some roots are those to which calls lead from one
of them; a root that was reached from an earlier one adds nothing, since what is reached is closed under calls.
The recursive components part the instances on call cycles by whether calls lead from each to the other. It
takes no more than descendants and strongly connected components that are what they are called.
-/

namespace LockAudit.CallGraph

/-- What the call graph of distinctly named instances has: nodes with distinct texts for names, and edges that
join them. -/
structure Formed (g : CallGraph) : Prop where
  named : DistinctlyNamed g.instances
  joined : ∀ e ∈ g.edges, g.contains e.caller = true ∧ g.contains e.callee = true

theorem contains_congr (g : CallGraph) {a b : Name} (h : a.same b = true) : g.contains a = g.contains b := by
  rw [Bool.eq_iff_iff, contains_iff, contains_iff]
  simp only [Name.same_iff, Name.same_iff.mp h]

theorem formed_build {instances : List Instance} (h : DistinctlyNamed instances) :
    (build instances).Formed := by
  refine ⟨⟨fun i hi => h.texts i (mem_build.mp hi), ?_⟩, fun e he => ?_⟩
  · exact ((orderOn_perm Instance.id instances).map Instance.id).nodup_iff.mpr h.nodup
  · have hcalls : (build instances).Calls e.caller e.callee :=
      ⟨e, he, Name.same_self _, Name.same_self _⟩
    obtain ⟨i, hi, _, _, hcaller, _⟩ := calls_iff_mayEnter.mp hcalls
    exact ⟨contains_iff.mpr ⟨i, mem_build.mpr hi, hcaller⟩, contains_of_calls hcalls⟩

variable {g : CallGraph}

theorem Formed.contains_iff_mem (h : g.Formed) {id : Name} :
    g.contains id = true ↔ id ∈ g.instances.map Instance.id := by
  rw [contains_iff, List.mem_map]
  exact exists_congr fun i => and_congr_right fun hi => Name.same_iff_eq (h.named.texts i hi)

theorem Formed.isText (h : g.Formed) {id : Name} (hid : g.contains id = true) : id.isText = true := by
  obtain ⟨i, hi, rfl⟩ := List.mem_map.mp (h.contains_iff_mem.mp hid)
  exact h.named.texts i hi

theorem Formed.contains_of_calls (h : g.Formed) {a b : Name} (hab : g.Calls a b) :
    g.contains a = true ∧ g.contains b = true := by
  obtain ⟨e, he, hcaller, hcallee⟩ := hab
  rw [← g.contains_congr hcaller, ← g.contains_congr hcallee]
  exact h.joined e he

theorem Formed.contains_callee (h : g.Formed) (a b : Name) (hab : g.Calls a b) : g.contains b = true :=
  (h.contains_of_calls hab).2

theorem Formed.contains_of_reflTransGen (h : g.Formed) {a b : Name} (ha : g.contains a = true)
    (hab : Relation.ReflTransGen g.Calls a b) : g.contains b = true := by
  cases hab with
  | refl => exact ha
  | tail _ hcalls => exact h.contains_callee _ _ hcalls

theorem Formed.contains_of_transGen (h : g.Formed) {a b : Name} (hab : Relation.TransGen g.Calls a b) :
    g.contains b = true := by
  cases hab with
  | single hcalls => exact h.contains_callee _ _ hcalls
  | tail _ hcalls => exact h.contains_callee _ _ hcalls

/-! ### What is reached -/

theorem among_texts_iff {names : List Name} (h : ∀ n ∈ names, n.isText = true) {id : Name} :
    among id names = true ↔ id ∈ names := by
  rw [among, List.any_eq_true]
  constructor
  · rintro ⟨n, hn, hsame⟩
    have hback : n.same id = true := Name.same_symm hsame
    exact (Name.same_iff_eq (h n hn)).mp hback ▸ hn
  · exact fun hid => ⟨id, hid, Name.same_self id⟩

section Descendants

variable {descendants : Name → List Name} (hd : g.GivesDescendants descendants)

include hd

theorem Formed.mem_descendants_iff (h : g.Formed) {root id : Name} (hroot : g.contains root = true) :
    id ∈ descendants root ↔ Relation.TransGen g.Calls root id ∧ id ≠ root := by
  have hlead : ∀ n ∈ descendants root, Relation.TransGen g.Calls root n := fun n hn =>
    ((hd root hroot n).mp (List.any_eq_true.mpr ⟨n, hn, Name.same_self n⟩)).1
  rw [← among_texts_iff fun n hn => h.isText (h.contains_of_transGen (hlead n hn)), hd root hroot]
  refine and_congr_right fun _ => ?_
  rw [← Bool.not_eq_true, Name.same_iff_eq (h.isText hroot)]
  exact ne_comm

theorem Formed.isText_of_mem_reachableBy (h : g.Formed) {roots : List Name} {id : Name}
    (hid : id ∈ g.reachableBy descendants roots) : id.isText = true := by
  obtain ⟨root, _, hroot, hreach⟩ := (hd.collects roots).sound id ((orderOn_perm _ _).mem_iff.mp hid)
  exact h.isText (h.contains_of_reflTransGen hroot hreach)

theorem Formed.mem_reachableBy_iff (h : g.Formed) {roots : List Name} {id : Name} :
    id ∈ g.reachableBy descendants roots ↔
      ∃ root ∈ roots, g.contains root = true ∧ Relation.ReflTransGen g.Calls root id := by
  rw [← among_texts_iff fun n => h.isText_of_mem_reachableBy hd, hd.among_reachableBy_iff]
  refine exists_congr fun root => and_congr_right fun _ => and_congr_right fun hroot => ?_
  constructor
  · rintro ⟨node, hreach, hsame⟩
    have hnode := h.isText (h.contains_of_reflTransGen hroot hreach)
    rwa [(Name.same_iff_eq hnode).mp hsame] at hreach
  · exact fun hreach => ⟨id, hreach, Name.same_self id⟩

theorem Formed.reachableBy_rising (h : g.Formed) (roots : List Name) :
    (g.reachableBy descendants roots).Pairwise fun a b => compare a b = .lt := by
  have htexts : ∀ id ∈ roots.foldl (g.addReached descendants) [], id.isText = true := fun id hid =>
    h.isText_of_mem_reachableBy hd ((orderOn_perm _ _).mem_iff.mpr hid)
  rw [reachableBy, orderOn_of_plain htexts]
  exact sortOn_texts_rising htexts ((hd.collects roots).distinct.of_map _)

end Descendants

/-- With the right descendants for each node, the instances reached from roots are in ascending order, each
once, and are exactly the nodes to which calls lead from one of the roots that is a node. They are all such
roots and all their descendants, although the descendants of a root that was reached before are never asked
for. The search for descendants that the program runs with gives the same. -/
theorem reached_exact (h : g.Formed) {descendants : Name → List Name} (hd : g.GivesDescendants descendants)
    (roots : List Name) :
    ((g.reachableBy descendants roots).Pairwise fun a b => compare a b = .lt) ∧
    (∀ id, id ∈ g.reachableBy descendants roots ↔ g.contains id = true ∧
      ∃ root ∈ roots, g.contains root = true ∧ Relation.ReflTransGen g.Calls root id) ∧
    (∀ id, id ∈ g.reachableBy descendants roots ↔
      ∃ root ∈ roots, g.contains root = true ∧ (id = root ∨ id ∈ descendants root)) ∧
    g.reachableBy descendants roots = g.reachableFrom roots := by
  have hown : g.GivesDescendants g.descendants := givesDescendants h.contains_callee
  refine ⟨h.reachableBy_rising hd roots, fun id => ?_, fun id => ?_, ?_⟩
  · rw [h.mem_reachableBy_iff hd]
    refine ⟨fun hid => ⟨?_, hid⟩, And.right⟩
    obtain ⟨root, _, hroot, hreach⟩ := hid
    exact h.contains_of_reflTransGen hroot hreach
  · rw [h.mem_reachableBy_iff hd]
    refine exists_congr fun root => and_congr_right fun _ => and_congr_right fun hroot => ?_
    rw [h.mem_descendants_iff hd hroot, Relation.reflTransGen_iff_eq_or_transGen]
    tauto
  · refine eq_of_rising id (h.reachableBy_rising hd roots) (h.reachableBy_rising hown roots) fun id => ?_
    exact (h.mem_reachableBy_iff hd).trans (h.mem_reachableBy_iff hown).symm

def callPairs (instances : List Instance) : List (Name × Name) :=
  instances.flatMap fun i => i.calls.flatMap fun c =>
    (instances.filter (admits c)).map fun j => (i.id, j.id)

/-- The calls of a graph can be read off the instances, without building it. -/
theorem calls_iff_mem_callPairs {instances : List Instance} (h : ∀ i ∈ instances, i.id.isText = true)
    {a b : Name} : (build instances).Calls a b ↔ (a, b) ∈ callPairs instances := by
  rw [calls_iff_mayEnter]
  constructor
  · rintro ⟨i, hi, j, hj, hcaller, hcallee, body, hbody, c, hc, hadmits⟩
    obtain rfl := (Name.same_iff_eq (h i hi)).mp hcaller
    obtain rfl := (Name.same_iff_eq (h j hj)).mp hcallee
    refine List.mem_flatMap.mpr ⟨i, hi, List.mem_flatMap.mpr ⟨c, Instance.mem_calls.mpr ⟨body, hbody, hc⟩, ?_⟩⟩
    exact List.mem_map.mpr ⟨j, List.mem_filter.mpr ⟨hj, hadmits⟩, rfl⟩
  · intro hab
    obtain ⟨i, hi, hab⟩ := List.mem_flatMap.mp hab
    obtain ⟨c, hc, hab⟩ := List.mem_flatMap.mp hab
    obtain ⟨j, hj, hab⟩ := List.mem_map.mp hab
    obtain ⟨rfl, rfl⟩ := Prod.mk.inj hab
    obtain ⟨hj, hadmits⟩ := List.mem_filter.mp hj
    obtain ⟨body, hbody, hc⟩ := Instance.mem_calls.mp hc
    exact ⟨i, hi, j, hj, Name.same_self _, Name.same_self _, body, hbody, c, hc, hadmits⟩

/-- Calls do not leave a list of names that each call from it stays in. -/
theorem mem_of_reflTransGen {instances : List Instance} (h : ∀ i ∈ instances, i.id.isText = true)
    {names : List Name} (hclosed : ∀ p ∈ callPairs instances, p.1 ∈ names → p.2 ∈ names) {a b : Name}
    (ha : a ∈ names) (hab : Relation.ReflTransGen (build instances).Calls a b) : b ∈ names := by
  induction hab with
  | refl => exact ha
  | tail _ hcalls ih => exact hclosed _ ((calls_iff_mem_callPairs h).mp hcalls) ih

/-- `main` enters a circle of two, one of which calls the other at two sites; `self` calls itself. -/
def circling : List Instance :=
  [callerOf "main" "" [callAt "a" (.str "ping") .null], callerOf "ping" "" [callAt "b" (.str "pong") .null],
    callerOf "pong" "" [callAt "c" (.str "ping") .null, callAt "d" (.str "ping") .null],
    callerOf "self" "" [callAt "e" (.str "self") .null]]

/-- One root is given twice, one is no node, and the last leads to the circle that the first has reached. -/
def circlingRoots : List Name :=
  [.str "pong", .str "absent", .str "pong", .str "main"]

theorem reached_exact_circling :
    (build circling).Formed ∧ (build circling).GivesDescendants (build circling).descendants ∧
      (build circling).reachableFrom circlingRoots = [.str "main", .str "ping", .str "pong"] := by
  have hnamed : DistinctlyNamed circling := by decide
  have hnode : ∀ id, (build circling).contains id = true ↔ id ∈ circling.map Instance.id := fun id =>
    (contains_build_iff hnamed.texts).trans List.mem_map.symm
  have hback : (build circling).Calls (.str "pong") (.str "ping") :=
    (calls_iff_mem_callPairs hnamed.texts).mpr (by decide)
  refine ⟨formed_build hnamed, givesDescendants (formed_build hnamed).contains_callee, ?_⟩
  obtain ⟨hrising, hexact, _, hown⟩ := reached_exact (formed_build hnamed)
    (givesDescendants (formed_build hnamed).contains_callee) circlingRoots
  rw [← hown]
  refine eq_of_rising id hrising (by decide) fun id => ?_
  rw [hexact]
  constructor
  · rintro ⟨_, root, hroot, hcontains, hreach⟩
    have hstart : ∀ root ∈ circlingRoots, root ∈ circling.map Instance.id →
        root ∈ [Json.str "main", .str "ping", .str "pong"] := by decide
    exact mem_of_reflTransGen hnamed.texts (by decide) (hstart root hroot ((hnode root).mp hcontains)) hreach
  · intro hid
    have hnodes : ∀ id ∈ [Json.str "main", .str "ping", .str "pong"], id ∈ circling.map Instance.id := by decide
    refine ⟨(hnode id).mpr (hnodes id hid), ?_⟩
    simp only [List.mem_cons, List.not_mem_nil, or_false] at hid
    rcases hid with rfl | rfl | rfl
    · exact ⟨.str "main", by decide, (hnode _).mpr (by decide), .refl⟩
    · exact ⟨.str "pong", by decide, (hnode _).mpr (by decide), .single hback⟩
    · exact ⟨.str "pong", by decide, (hnode _).mpr (by decide), .refl⟩

/-! ### Rows of what is reached -/

def rows (g : CallGraph) : BitRows :=
  (BitRows.ofEdges ((g.instances.map Instance.id).map Json.canonical) (g.edges.map CallEdge.ends)).closure

theorem reachings_eq (g : CallGraph) :
    g.reachings = ((g.instances.map Instance.id).zip g.rows).zipIdx.map fun n =>
      { id := n.1.1, position := n.2, row := n.1.2 } :=
  rfl

theorem map_id_reachings (g : CallGraph) : g.reachings.map Reaching.id = g.instances.map Instance.id := by
  have hlength : (g.instances.map Instance.id).length ≤ g.rows.length := by
    simp [rows, BitRows.length_closure, BitRows.ofEdges]
  rw [reachings_eq, List.map_map]
  calc ((g.instances.map Instance.id).zip g.rows).zipIdx.map (Prod.fst ∘ Prod.fst)
    _ = (((g.instances.map Instance.id).zip g.rows).zipIdx.map Prod.fst).map Prod.fst := by rw [List.map_map]
    _ = g.instances.map Instance.id := by rw [List.zipIdx_map_fst, List.map_fst_zip hlength]

theorem getElem?_of_mem_reachings {a : Reaching} (h : a ∈ g.reachings) :
    (g.instances.map Instance.id)[a.position]? = some a.id ∧ g.rows[a.position]? = some a.row := by
  rw [reachings_eq] at h
  obtain ⟨⟨⟨id, row⟩, position⟩, hn, rfl⟩ := List.mem_map.mp h
  exact List.getElem?_zip_eq_some.mp (List.mem_zipIdx_iff_getElem?.mp hn)

theorem Formed.position_eq (h : g.Formed) {a : Reaching} (ha : a ∈ g.reachings) :
    a.position = (g.instances.map Instance.id).idxOf a.id := by
  obtain ⟨hlt, hid⟩ := List.getElem?_eq_some_iff.mp (getElem?_of_mem_reachings ha).1
  rw [← hid, h.named.nodup.idxOf_getElem]

theorem Formed.ends_eq (h : g.Formed) {e : CallEdge} (he : e ∈ g.edges) : e.ends = (e.caller, e.callee) := by
  obtain ⟨hcaller, hcallee⟩ := h.joined e he
  rw [CallEdge.ends, Name.canonical_of_isText (h.isText hcaller), Name.canonical_of_isText (h.isText hcallee)]

theorem Formed.calls_eq (h : g.Formed) : g.Calls = fun a b => (a, b) ∈ g.edges.map CallEdge.ends := by
  funext a b
  rw [eq_iff_iff]
  constructor
  · intro hab
    obtain ⟨ha, hb⟩ := h.contains_of_calls hab
    rwa [calls_iff, Name.canonical_of_isText (h.isText ha), Name.canonical_of_isText (h.isText hb)] at hab
  · intro hab
    obtain ⟨e, he, hends⟩ := List.mem_map.mp hab
    obtain ⟨rfl, rfl⟩ := Prod.mk.inj ((h.ends_eq he).symm.trans hends)
    exact ⟨e, he, Name.same_self _, Name.same_self _⟩

theorem Formed.leadsTo_iff (h : g.Formed) {a b : Reaching} (ha : a ∈ g.reachings) (hb : b ∈ g.reachings) :
    a.leadsTo b = true ↔ Relation.TransGen g.Calls a.id b.id := by
  have hids : ∀ r ∈ g.reachings, r.id ∈ g.instances.map Instance.id := fun r hr =>
    map_id_reachings g ▸ List.mem_map_of_mem hr
  have hcanonical : (g.instances.map Instance.id).map Json.canonical = g.instances.map Instance.id := by
    rw [List.map_map]
    exact List.map_congr_left fun i hi => Name.canonical_of_isText (h.named.texts i hi)
  have hedges : ∀ e ∈ g.edges.map CallEdge.ends, e.1 ∈ g.instances.map Instance.id ∧
      e.2 ∈ g.instances.map Instance.id := by
    refine List.forall_mem_map.mpr fun e he => ?_
    rw [h.ends_eq he, ← h.contains_iff_mem, ← h.contains_iff_mem]
    exact h.joined e he
  have hleads : a.leadsTo b = g.rows.leads a.position b.position := by
    rw [Reaching.leadsTo, BitRows.leads, (getElem?_of_mem_reachings ha).2, Option.getD_some]
  rw [hleads, h.position_eq ha, h.position_eq hb, h.calls_eq, rows, hcanonical]
  exact BitRows.leads_closure_ofEdges hedges (hids a ha) (hids b hb)

/-! ### Strongly connected components -/

/-- Calls lead from each of two instances to the other, or they are one. -/
def Connected (g : CallGraph) (a b : Name) : Prop :=
  Relation.ReflTransGen g.Calls a b ∧ Relation.ReflTransGen g.Calls b a

theorem Connected.symm {a b : Name} (h : g.Connected a b) : g.Connected b a :=
  ⟨h.2, h.1⟩

theorem Connected.trans {a b c : Name} (hab : g.Connected a b) (hbc : g.Connected b c) : g.Connected a c :=
  ⟨hab.1.trans hbc.1, hbc.2.trans hab.2⟩

theorem Connected.refl (g : CallGraph) (a : Name) : g.Connected a a :=
  ⟨.refl, .refl⟩

/-- The nodes, parted into the strongly connected components of the graph. -/
structure AreComponents (g : CallGraph) (components : List (List Name)) : Prop where
  nonempty : ∀ c ∈ components, c ≠ []
  nodup : ∀ c ∈ components, c.Nodup
  disjoint : components.Pairwise List.Disjoint
  nodes : ∀ id, (∃ c ∈ components, id ∈ c) ↔ g.contains id = true
  connected : ∀ c ∈ components, ∀ a ∈ c, ∀ b, b ∈ c ↔ g.Connected a b

def componentOf (g : CallGraph) (a : Reaching) : List Name :=
  (g.reachings.filter a.joins).map Reaching.id

theorem mem_components {c : List Name} : c ∈ g.components ↔ ∃ a ∈ g.reachings, g.componentOf a = c := by
  rw [components, List.mem_eraseDups, List.mem_map]
  rfl

theorem Formed.exists_reaching (h : g.Formed) {id : Name} (hid : g.contains id = true) :
    ∃ a ∈ g.reachings, a.id = id := by
  rw [h.contains_iff_mem, ← map_id_reachings] at hid
  exact List.mem_map.mp hid

theorem Formed.contains_id (h : g.Formed) {a : Reaching} (ha : a ∈ g.reachings) : g.contains a.id = true := by
  rw [h.contains_iff_mem, ← map_id_reachings]
  exact List.mem_map_of_mem ha

theorem Formed.position_eq_iff (h : g.Formed) {a b : Reaching} (ha : a ∈ g.reachings)
    (hb : b ∈ g.reachings) : a.position = b.position ↔ a.id = b.id := by
  constructor
  · intro hposition
    have hid := (getElem?_of_mem_reachings ha).1
    rw [hposition, (getElem?_of_mem_reachings hb).1] at hid
    exact (Option.some.inj hid).symm
  · intro hid
    rw [h.position_eq ha, h.position_eq hb, hid]

theorem Formed.joins_iff (h : g.Formed) {a b : Reaching} (ha : a ∈ g.reachings) (hb : b ∈ g.reachings) :
    a.joins b = true ↔ g.Connected a.id b.id := by
  rw [Reaching.joins, Bool.or_eq_true, beq_iff_eq, Bool.and_eq_true, h.leadsTo_iff ha hb,
    h.leadsTo_iff hb ha, h.position_eq_iff ha hb]
  constructor
  · rintro (heq | ⟨hab, hba⟩)
    · exact heq ▸ .refl g a.id
    · exact ⟨hab.to_reflTransGen, hba.to_reflTransGen⟩
  · rintro ⟨hab, hba⟩
    rcases Relation.reflTransGen_iff_eq_or_transGen.mp hab with heq | hab
    · exact .inl heq.symm
    · rcases Relation.reflTransGen_iff_eq_or_transGen.mp hba with heq | hba
      · exact .inl heq
      · exact .inr ⟨hab, hba⟩

theorem Formed.mem_componentOf (h : g.Formed) {a : Reaching} (ha : a ∈ g.reachings) {id : Name} :
    id ∈ g.componentOf a ↔ g.Connected a.id id := by
  rw [componentOf, List.mem_map]
  constructor
  · rintro ⟨b, hb, rfl⟩
    obtain ⟨hb, hjoins⟩ := List.mem_filter.mp hb
    exact (h.joins_iff ha hb).mp hjoins
  · intro hid
    obtain ⟨b, hb, rfl⟩ := h.exists_reaching (h.contains_of_reflTransGen (h.contains_id ha) hid.1)
    exact ⟨b, List.mem_filter.mpr ⟨hb, (h.joins_iff ha hb).mpr hid⟩, rfl⟩

/-- Connected nodes have one component, whose members stand in the order of all nodes. -/
theorem Formed.componentOf_eq (h : g.Formed) {a b : Reaching} (ha : a ∈ g.reachings) (hb : b ∈ g.reachings)
    (hab : g.Connected a.id b.id) : g.componentOf a = g.componentOf b := by
  refine congrArg (List.map Reaching.id) (List.filter_congr fun r hr => ?_)
  rw [Bool.eq_iff_iff, h.joins_iff ha hr, h.joins_iff hb hr]
  exact ⟨hab.symm.trans, hab.trans⟩

/-- The components that the program computes are the strongly connected ones. -/
theorem Formed.areComponents (h : g.Formed) : g.AreComponents g.components := by
  have hconnected : ∀ c ∈ g.components, ∀ a ∈ c, ∀ b, b ∈ c ↔ g.Connected a b := by
    intro c hc a ha b
    obtain ⟨r, hr, rfl⟩ := mem_components.mp hc
    rw [h.mem_componentOf hr] at ha ⊢
    exact ⟨ha.symm.trans, ha.trans⟩
  refine ⟨?nonempty, ?nodup, ?disjoint, ?nodes, hconnected⟩
  case nonempty =>
    intro c hc
    obtain ⟨r, hr, rfl⟩ := mem_components.mp hc
    exact List.ne_nil_of_mem ((h.mem_componentOf hr).mpr (.refl g r.id))
  case nodup =>
    intro c hc
    obtain ⟨r, hr, rfl⟩ := mem_components.mp hc
    have hids : (g.reachings.map Reaching.id).Nodup := by
      rw [map_id_reachings]
      exact h.named.nodup
    exact hids.sublist (List.filter_sublist.map _)
  case disjoint =>
    have hdistinct : g.components.Nodup := by
      have hkeys := (eraseDupsBy_key id (g.reachings.map g.componentOf)).2
      rwa [List.map_id] at hkeys
    refine hdistinct.imp_of_mem fun {c d} hc hd hne id hidc hidd => hne ?_
    obtain ⟨r, hr, rfl⟩ := mem_components.mp hc
    obtain ⟨n, hn, rfl⟩ := mem_components.mp hd
    rw [h.mem_componentOf hr] at hidc
    rw [h.mem_componentOf hn] at hidd
    exact h.componentOf_eq hr hn (hidc.trans hidd.symm)
  case nodes =>
    intro id
    constructor
    · rintro ⟨c, hc, hid⟩
      obtain ⟨r, hr, rfl⟩ := mem_components.mp hc
      exact h.contains_of_reflTransGen (h.contains_id hr) ((h.mem_componentOf hr).mp hid).1
    · intro hid
      obtain ⟨r, hr, rfl⟩ := h.exists_reaching hid
      exact ⟨_, mem_components.mpr ⟨r, hr, rfl⟩, (h.mem_componentOf hr).mpr (.refl g r.id)⟩

/-! ### Recursive components -/

/-- The instances on call cycles, parted by whether calls lead from each to the other. -/
structure AreRecursiveComponents (g : CallGraph) (components : List (List Name)) : Prop where
  ascending : components.Pairwise fun c d => compare c d = .lt
  membersAscending : ∀ c ∈ components, c.Pairwise fun a b => compare a b = .lt
  nonempty : ∀ c ∈ components, c ≠ []
  disjoint : components.Pairwise List.Disjoint
  onCycle : ∀ id, (∃ c ∈ components, id ∈ c) ↔ Relation.TransGen g.Calls id id
  together : ∀ a b, Relation.TransGen g.Calls a a → Relation.TransGen g.Calls b b →
    ((∃ c ∈ components, a ∈ c ∧ b ∈ c) ↔
      Relation.ReflTransGen g.Calls a b ∧ Relation.ReflTransGen g.Calls b a)

theorem callsItself_iff {id : Name} : g.callsItself id = true ↔ g.Calls id id := by
  simp only [callsItself, List.any_eq_true, Bool.and_eq_true, Calls]

section Components

variable {components : List (List Name)} (hc : g.AreComponents components)

include hc

/-- The test on a component tells whether calls lead from a member back to it. -/
theorem AreComponents.isRecursive_iff {c : List Name} (hmem : c ∈ components) {members : List Name}
    (hperm : members.Perm c) {a : Name} (ha : a ∈ c) :
    (decide (1 < members.length) || members.head?.any g.callsItself) = true ↔
      Relation.TransGen g.Calls a a := by
  rw [Bool.or_eq_true, decide_eq_true_eq, hperm.length_eq]
  constructor
  · rintro (hlength | hself)
    · have hne : c ≠ [a] := by
        rintro rfl
        simp at hlength
      obtain rfl | ⟨b, hb, hba⟩ := ((hc.nodup c hmem).ne_singleton_iff a).mp hne
      · cases ha
      · obtain ⟨hab, hback⟩ := (hc.connected c hmem a ha b).mp hb
        rcases Relation.reflTransGen_iff_eq_or_transGen.mp hab with rfl | hab
        · exact absurd rfl hba
        · exact hab.trans_left hback
    · obtain ⟨b, hb, hself⟩ := (Option.any_eq_true _ _).mp hself
      have hcalls := callsItself_iff.mp hself
      obtain ⟨hab, hba⟩ := (hc.connected c hmem a ha b).mp (hperm.mem_iff.mp (List.mem_of_head? hb))
      exact .trans_right hab (.trans_left (.single hcalls) hba)
  · intro hcycle
    obtain ⟨b, hab, hba⟩ := Relation.TransGen.head'_iff.mp hcycle
    have hb : b ∈ c := (hc.connected c hmem a ha b).mpr ⟨.single hab, hba⟩
    by_cases hlength : 1 < c.length
    · exact .inl hlength
    · -- the only member is the first one called on the way back to it
      obtain ⟨x, rfl⟩ : ∃ x, c = [x] :=
        List.length_eq_one_iff.mp (Nat.le_antisymm (Nat.le_of_not_lt hlength) (List.length_pos_of_mem ha))
      obtain rfl := List.mem_singleton.mp ha
      obtain rfl := List.mem_singleton.mp hb
      rw [List.perm_singleton.mp hperm]
      exact .inr (callsItself_iff.mpr hab)

theorem AreComponents.mem_recursiveAmong {members : List Name} :
    members ∈ g.recursiveAmong components ↔
      ∃ c ∈ components, sortOn id c = members ∧ ∀ a ∈ c, Relation.TransGen g.Calls a a := by
  rw [recursiveAmong, (sortOn_perm id _).mem_iff, List.mem_filter, List.mem_map]
  constructor
  · rintro ⟨⟨c, hmem, rfl⟩, htest⟩
    exact ⟨c, hmem, rfl, fun a ha => (hc.isRecursive_iff hmem (sortOn_perm id c) ha).mp htest⟩
  · rintro ⟨c, hmem, rfl, hcycle⟩
    obtain ⟨a, ha⟩ := List.exists_mem_of_ne_nil c (hc.nonempty c hmem)
    exact ⟨⟨c, hmem, rfl⟩, (hc.isRecursive_iff hmem (sortOn_perm id c) ha).mpr (hcycle a ha)⟩

theorem AreComponents.isText (h : g.Formed) {c : List Name} (hmem : c ∈ components) {a : Name} (ha : a ∈ c) :
    a.isText = true :=
  h.isText ((hc.nodes a).mp ⟨c, hmem, ha⟩)

/-- No two components compare as equal, since they have no member in common. -/
theorem AreComponents.recursiveAmong_rising (h : g.Formed) :
    (g.recursiveAmong components).Pairwise fun c d => compare c d = .lt := by
  have htexts : ∀ c ∈ components, ∀ a ∈ sortOn id c, a.isText = true := fun c hmem a ha =>
    hc.isText h hmem ((sortOn_perm id c).mem_iff.mp ha)
  refine sortOn_rising ?_ ?_
  · intro xs hxs ys hys
    obtain ⟨c, hmem, rfl⟩ := List.mem_map.mp (List.mem_filter.mp hxs).1
    obtain ⟨d, hmem', rfl⟩ := List.mem_map.mp (List.mem_filter.mp hys).1
    exact eq_of_compare_lists fun a ha b hb =>
      Name.eq_of_compare_texts (htexts c hmem a ha) (htexts d hmem' b hb)
  · have hdistinct : (components.map (sortOn id)).Nodup := by
      refine List.pairwise_map.mpr (hc.disjoint.imp_of_mem fun {c d} hmem _ hdisjoint heq => ?_)
      obtain ⟨a, ha⟩ := List.exists_mem_of_ne_nil c (hc.nonempty c hmem)
      have had : a ∈ sortOn id d := heq ▸ (sortOn_perm id c).mem_iff.mpr ha
      exact hdisjoint ha ((sortOn_perm id d).mem_iff.mp had)
    rw [List.map_id_fun']
    exact hdistinct.filter _

/-- The recursive components among the strongly connected ones part the instances on call cycles. -/
theorem AreComponents.areRecursiveComponents (h : g.Formed) :
    g.AreRecursiveComponents (g.recursiveAmong components) where
  ascending := hc.recursiveAmong_rising h
  membersAscending := by
    intro members hmembers
    obtain ⟨c, hmem, rfl, _⟩ := hc.mem_recursiveAmong.mp hmembers
    exact sortOn_texts_rising (fun a ha => hc.isText h hmem ha) (hc.nodup c hmem)
  nonempty := by
    intro members hmembers
    obtain ⟨c, hmem, rfl, _⟩ := hc.mem_recursiveAmong.mp hmembers
    obtain ⟨a, ha⟩ := List.exists_mem_of_ne_nil c (hc.nonempty c hmem)
    exact List.ne_nil_of_mem ((sortOn_perm id c).mem_iff.mpr ha)
  disjoint := by
    have hsorted : (components.map (sortOn id)).Pairwise List.Disjoint := by
      refine List.pairwise_map.mpr (hc.disjoint.imp fun {c d} hdisjoint a hac had => ?_)
      exact hdisjoint ((sortOn_perm id c).mem_iff.mp hac) ((sortOn_perm id d).mem_iff.mp had)
    exact ((sortOn_perm id _).pairwise_iff List.disjoint_symm).mpr (hsorted.filter _)
  onCycle := by
    intro a
    constructor
    · rintro ⟨members, hmembers, ha⟩
      obtain ⟨c, _, rfl, hcycle⟩ := hc.mem_recursiveAmong.mp hmembers
      exact hcycle a ((sortOn_perm id c).mem_iff.mp ha)
    · intro hcycle
      obtain ⟨c, hmem, ha⟩ := (hc.nodes a).mpr (h.contains_of_transGen hcycle)
      refine ⟨_, hc.mem_recursiveAmong.mpr ⟨c, hmem, rfl, fun b hb => ?_⟩, (sortOn_perm id c).mem_iff.mpr ha⟩
      obtain ⟨hba, hab⟩ := (hc.connected c hmem b hb a).mp ha
      exact .trans_right hba (hcycle.trans_left hab)
  together := by
    intro a b hcycle _
    constructor
    · rintro ⟨members, hmembers, ha, hb⟩
      obtain ⟨c, hmem, rfl, _⟩ := hc.mem_recursiveAmong.mp hmembers
      rw [(sortOn_perm id c).mem_iff] at ha hb
      exact (hc.connected c hmem a ha b).mp hb
    · intro hconnected
      obtain ⟨c, hmem, ha⟩ := (hc.nodes a).mpr (h.contains_of_transGen hcycle)
      have hb := (hc.connected c hmem a ha b).mpr hconnected
      refine ⟨_, hc.mem_recursiveAmong.mpr ⟨c, hmem, rfl, fun d hd => ?_⟩,
        (sortOn_perm id c).mem_iff.mpr ha, (sortOn_perm id c).mem_iff.mpr hb⟩
      obtain ⟨hda, had⟩ := (hc.connected c hmem d hd a).mp ha
      exact .trans_right hda (hcycle.trans_left had)

end Components

theorem AreRecursiveComponents.mem_iff {components : List (List Name)}
    (h : g.AreRecursiveComponents components) {c : List Name} (hc : c ∈ components) {a : Name} (ha : a ∈ c)
    (b : Name) : b ∈ c ↔ Relation.TransGen g.Calls b b ∧ g.Connected a b := by
  have hcycle := (h.onCycle a).mp ⟨c, hc, ha⟩
  constructor
  · intro hb
    have hback := (h.onCycle b).mp ⟨c, hc, hb⟩
    exact ⟨hback, (h.together a b hcycle hback).mp ⟨c, hc, ha, hb⟩⟩
  · rintro ⟨hback, hconnected⟩
    obtain ⟨d, hd, had, hbd⟩ := (h.together a b hcycle hback).mpr hconnected
    have hsymm : Std.Symm (α := List Name) List.Disjoint := ⟨fun _ _ => List.disjoint_symm⟩
    have hcd : c = d := by
      by_contra hne
      exact h.disjoint.forall hc hd hne ha had
    exact hcd ▸ hbd

theorem AreRecursiveComponents.subset {components components' : List (List Name)}
    (h : g.AreRecursiveComponents components) (h' : g.AreRecursiveComponents components') :
    components ⊆ components' := by
  intro c hc
  obtain ⟨a, ha⟩ := List.exists_mem_of_ne_nil c (h.nonempty c hc)
  obtain ⟨d, hd, had⟩ := (h'.onCycle a).mpr ((h.onCycle a).mp ⟨c, hc, ha⟩)
  have hcd : c = d := eq_of_rising id (h.membersAscending c hc) (h'.membersAscending d hd) fun b => by
    rw [h.mem_iff hc ha, h'.mem_iff hd had]
  exact hcd ▸ hd

/-- Only one list parts the instances on call cycles in this way. -/
theorem AreRecursiveComponents.unique {components components' : List (List Name)}
    (h : g.AreRecursiveComponents components) (h' : g.AreRecursiveComponents components') :
    components = components' :=
  eq_of_rising id h.ascending h'.ascending fun _ => ⟨fun hc => h.subset h' hc, fun hc => h'.subset h hc⟩

theorem Formed.isText_of_mem_component (h : g.Formed) {c : List Name} (hc : c ∈ g.recursiveComponents)
    {id : Name} (hid : id ∈ c) : id.isText = true := by
  have hcycle := ((h.areComponents.areRecursiveComponents h).onCycle id).mp ⟨c, hc, hid⟩
  exact h.isText (h.contains_of_transGen hcycle)

theorem Formed.recursiveComponentsOnTour_eq (h : g.Formed) :
    g.recursiveComponentsOnTour = g.recursiveComponents := by
  -- a node with a text for a name has no other name under which it could be met
  have hmet : ∀ id : Name, id.isText = true → (g.tour.find? id.same).getD id = id := by
    intro id htext
    cases hfind : g.tour.find? id.same with
    | none => rfl
    | some met => exact ((Name.same_iff_eq htext).mp (List.find?_some hfind)).symm
  have hsame : ∀ c ∈ g.recursiveComponents, (c.map fun id => (g.tour.find? id.same).getD id) = c := fun c hc =>
    (List.map_congr_left fun id hid => hmet id (h.isText_of_mem_component hc hid)).trans (List.map_id _)
  exact (List.map_congr_left hsame).trans (List.map_id _)

/-- Given the strongly connected components, the recursive ones part the instances on call cycles. The
components that the program computes give the same, and a tour of the nodes does not change their names. -/
theorem recursiveComponents_exact (h : g.Formed) {components : List (List Name)}
    (hc : g.AreComponents components) :
    g.AreRecursiveComponents (g.recursiveAmong components) ∧
      g.recursiveAmong components = g.recursiveComponents ∧
      g.recursiveComponentsOnTour = g.recursiveComponents :=
  have hexact := hc.areRecursiveComponents h
  ⟨hexact, hexact.unique (h.areComponents.areRecursiveComponents h), h.recursiveComponentsOnTour_eq⟩

/-- The circle is one component and the instance that calls itself another; `main` leads to a circle, but none
leads back. -/
theorem recursiveComponents_exact_circling :
    let components := (build circling).recursiveComponents
    (build circling).Formed ∧ (∃ c ∈ components, Json.str "ping" ∈ c ∧ Json.str "pong" ∈ c) ∧
      (∃ c ∈ components, Json.str "self" ∈ c) ∧
      (¬∃ c ∈ components, Json.str "ping" ∈ c ∧ Json.str "self" ∈ c) ∧
      ¬∃ c ∈ components, Json.str "main" ∈ c := by
  have hnamed : DistinctlyNamed circling := by decide
  have hcalls : ∀ p ∈ callPairs circling, (build circling).Calls p.1 p.2 := fun p =>
    (calls_iff_mem_callPairs hnamed.texts).mpr
  have hthere := hcalls (.str "ping", .str "pong") (by decide)
  have hback := hcalls (.str "pong", .str "ping") (by decide)
  have hself := hcalls (.str "self", .str "self") (by decide)
  have hping : Relation.TransGen (build circling).Calls (.str "ping") (.str "ping") :=
    .tail (.single hthere) hback
  have hpong : Relation.TransGen (build circling).Calls (.str "pong") (.str "pong") :=
    .tail (.single hback) hthere
  obtain ⟨h, hown, _⟩ :=
    recursiveComponents_exact (formed_build hnamed) (formed_build hnamed).areComponents
  rw [hown] at h
  refine ⟨formed_build hnamed, ?_, ?_, ?_, ?_⟩
  · exact (h.together _ _ hping hpong).mpr ⟨.single hthere, .single hback⟩
  · exact (h.onCycle _).mpr (.single hself)
  · rw [h.together _ _ hping (.single hself)]
    rintro ⟨hreach, _⟩
    have hstays : Json.str "self" ∈ [Json.str "ping", .str "pong"] :=
      mem_of_reflTransGen hnamed.texts (by decide) (by decide) hreach
    exact absurd hstays (by decide)
  · rw [h.onCycle]
    intro hmain
    obtain ⟨a, _, ha⟩ := Relation.TransGen.tail'_iff.mp hmain
    have hnone : ∀ p ∈ callPairs circling, p.2 ≠ .str "main" := by decide
    exact hnone _ ((calls_iff_mem_callPairs hnamed.texts).mp ha) rfl

end LockAudit.CallGraph
