import LockAudit.Proofs.CallGraph.Lookup
import LockAudit.Proofs.CallGraph.Reach
import LockAudit.Proofs.Name.Order
import LockAudit.Proofs.Order.Sorted

/-! # Live instances

An instance is live if calls lead to it from one of the roots. Calls of live instances enter live ones
only, so two lists of instances that have the same live instances have call graphs that answer alike about
everything live, whatever else the lists hold.
-/

namespace LockAudit

structure DistinctlyNamed (instances : List Instance) : Prop where
  texts : ∀ i ∈ instances, i.id.isText = true
  nodup : (instances.map Instance.id).Nodup

instance (instances : List Instance) : Decidable (DistinctlyNamed instances) :=
  decidable_of_iff ((∀ i ∈ instances, i.id.isText = true) ∧ (instances.map Instance.id).Nodup)
    ⟨fun h => ⟨h.1, h.2⟩, fun h => ⟨h.texts, h.nodup⟩⟩

theorem DistinctlyNamed.rising {xs : List Instance} (h : DistinctlyNamed xs) :
    (CallGraph.build xs).instances.Pairwise fun i j => compare i.id j.id = .lt := by
  have hplain : ∀ i ∈ xs, Ranked.isPlain i.id = true := h.texts
  have hnodes : (CallGraph.build xs).instances = sortOn Instance.id xs := orderOn_of_plain hplain
  rw [hnodes]
  refine sortOn_rising ?_ h.nodup
  intro i hi j hj
  exact Name.eq_of_compare_texts (h.texts i hi) (h.texts j hj)

theorem CallGraph.ofInstances_of_texts {instances : List Instance}
    (htexts : ∀ i ∈ instances, i.id.isText = true)
    (hkeyed : ∀ i ∈ instances, instanceIsKeyed i = true) :
    ofInstances instances = .ok (build instances) := by
  have horder : haveOrder (instances.map Instance.id) = true :=
    haveOrder_of_texts (List.forall_mem_map.mpr htexts)
  have hnull : (instances.any fun i => i.id == .null) = false := by
    refine List.any_eq_false.mpr fun i hi hn => ?_
    have ht := htexts i hi
    rw [eq_of_beq hn] at ht
    cases ht
  have hall : instances.all instanceIsKeyed = true := List.all_eq_true.mpr hkeyed
  rw [ofInstances, fault?, horder, hnull, hall]
  rfl

namespace CallGraph

variable {xs ys : List Instance} {roots : List Name}

/-- What is picked from two lists stands in the same order in both graphs. -/
theorem filter_nodes_eq (hx : DistinctlyNamed xs) (hy : DistinctlyNamed ys) {p : Instance → Bool}
    (h : ∀ i, p i = true → (i ∈ xs ↔ i ∈ ys)) :
    (build xs).instances.filter p = (build ys).instances.filter p := by
  refine eq_of_rising Instance.id (hx.rising.filter p) (hy.rising.filter p) fun i => ?_
  rw [List.mem_filter, List.mem_filter, mem_build, mem_build]
  exact ⟨fun hi => ⟨(h i hi.2).mp hi.1, hi.2⟩, fun hi => ⟨(h i hi.2).mpr hi.1, hi.2⟩⟩

/-! ### What is reached -/

theorem Reached.congr {g : CallGraph} {a b : Name} (h : g.Reached roots a) (hab : a.same b = true) :
    g.Reached roots b := by
  obtain ⟨root, hroot, hcontains, node, hreach, hsame⟩ := h
  exact ⟨root, hroot, hcontains, node, hreach,
    Name.same_trans hsame hab⟩

theorem Reached.calls {g : CallGraph} {a b : Name} (h : g.Reached roots a) (hab : g.Calls a b) :
    g.Reached roots b := by
  obtain ⟨root, hroot, hcontains, node, hreach, hsame⟩ := h
  rw [calls_iff, ← Name.same_iff.mp hsame, ← calls_iff] at hab
  exact ⟨root, hroot, hcontains, b, hreach.tail hab, Name.same_self b⟩

theorem Reached.exists_instance {id : Name} (h : (build xs).Reached roots id) :
    ∃ i ∈ xs, i.id.same id = true := by
  obtain ⟨root, _, hcontains, node, hreach, hsame⟩ := h
  have hnode : (build xs).contains node = true := by
    clear hsame
    cases hreach with
    | refl => exact hcontains
    | tail _ hcalls => exact contains_of_calls hcalls
  obtain ⟨i, hi, hid⟩ := contains_iff.mp hnode
  exact ⟨i, mem_build.mp hi, Name.same_trans hid hsame⟩

theorem among_build_iff {id : Name} :
    among id ((build xs).reachableFrom roots) = true ↔ (build xs).Reached roots id :=
  among_reachableFrom_iff fun _ _ => contains_of_calls

def Live (instances : List Instance) (roots : List Name) (i : Instance) : Prop :=
  i ∈ instances ∧ (build instances).Reached roots i.id

theorem Live.mayEnter {i j : Instance} (hi : Live xs roots i) (hj : j ∈ xs) (h : MayEnter i j) :
    Live xs roots j := by
  refine ⟨hj, hi.2.calls (calls_iff_mayEnter.mpr ?_)⟩
  exact ⟨i, hi.1, j, hj, Name.same_self _, Name.same_self _, h⟩

/-! ### Graphs with the same live instances -/

section Agreement

variable (hlive : ∀ i, Live xs roots i ↔ Live ys roots i)

include hlive

theorem Reached.transfer {id : Name} (h : (build xs).Reached roots id) :
    (build ys).Reached roots id := by
  obtain ⟨i, hi, hsame⟩ := h.exists_instance
  have hback : id.same i.id = true := Name.same_symm hsame
  exact ((hlive i).mp ⟨hi, h.congr hback⟩).2.congr hsame

theorem mem_iff_of_reached {i : Instance} (h : (build xs).Reached roots i.id) : i ∈ xs ↔ i ∈ ys :=
  ⟨fun hi => ((hlive i).mp ⟨hi, h⟩).1, fun hi => ((hlive i).mpr ⟨hi, h.transfer hlive⟩).1⟩

/-- A call of a live instance enters the same instances in both lists. -/
theorem mem_iff_of_mayEnter {i j : Instance} (hi : Live xs roots i) (h : MayEnter i j) :
    j ∈ xs ↔ j ∈ ys :=
  ⟨fun hj => ((hlive j).mp (hi.mayEnter hj h)).1,
    fun hj => ((hlive j).mpr (((hlive i).mp hi).mayEnter hj h)).1⟩

variable (hx : DistinctlyNamed xs) (hy : DistinctlyNamed ys)

include hx hy

/-- A call of a live instance resolves to live instances alone, so that the others can be left out. -/
theorem resolve_eq {i : Instance} (hi : Live xs roots i) {body : Body} (hbody : i.body = some body)
    {c : Call} (hc : c ∈ body.calls) :
    resolve (build xs).instances c = resolve (build ys).instances c := by
  have hadmits : ∀ j, admits c j = true → (j ∈ xs ↔ j ∈ ys) := fun j hj =>
    mem_iff_of_mayEnter hlive hi ⟨body, hbody, c, hc, hj⟩
  unfold resolve
  cases hindirect : c.isIndirect with
  | true =>
    have haccepts : ∀ j, accepts c j = true → (j ∈ xs ↔ j ∈ ys) := fun j hj =>
      hadmits j (by rw [admits, hindirect, if_pos rfl, hj])
    rw [if_pos rfl, if_pos rfl, filter_nodes_eq hx hy haccepts]
  | false =>
    have hany : ((build xs).instances.any fun j => j.id.same c.callee) =
        (build ys).instances.any fun j => j.id.same c.callee := by
      rw [Bool.eq_iff_iff, List.any_eq_true, List.any_eq_true]
      simp only [mem_build]
      refine exists_congr fun j => and_congr_left fun hj => hadmits j ?_
      rw [admits, hindirect, if_neg Bool.false_ne_true, hj]
    rw [hany, if_neg Bool.false_ne_true, if_neg Bool.false_ne_true]

theorem nodes_named_eq {id : Name} (h : (build xs).Reached roots id) :
    (build xs).instances.filter (fun i => i.id.same id) =
      (build ys).instances.filter fun i => i.id.same id := by
  refine filter_nodes_eq hx hy fun i hi => mem_iff_of_reached hlive (h.congr ?_)
  exact Name.same_symm hi

theorem instance?_eq {id : Name} (h : (build xs).Reached roots id) :
    (build xs).instance? id = (build ys).instance? id := by
  rw [instance?, instance?, ← List.head?_filter, ← List.head?_filter, nodes_named_eq hlive hx hy h]

/-- Two lists with the same live instances have graphs that answer alike about live callers. -/
theorem answers_eq {id : Name} (h : (build xs).Reached roots id) (site : Name) :
    (build xs).callees id site = (build ys).callees id site ∧
      (build xs).isUnresolved id site = (build ys).isUnresolved id site := by
  refine answers_congr ?_ site
  rw [filter_resolutions, filter_resolutions, ← nodes_named_eq hlive hx hy h]
  refine List.flatMap_congr fun i hi => ?_
  obtain ⟨hmem, hsame⟩ := List.mem_filter.mp hi
  have hback : id.same i.id = true := Name.same_symm hsame
  have hi : Live xs roots i := ⟨mem_build.mp hmem, h.congr hback⟩
  unfold resolutionsOf
  cases hbody : i.body with
  | none => rfl
  | some body =>
    refine List.map_congr_left fun c hc => ?_
    rw [resolve_eq hlive hx hy hi hbody hc]

end Agreement

/-! ### Removing what is not live -/

/-- Instances that are kept while everything live is keep their calls from the roots. -/
theorem live_iff_of_subset (hsub : ∀ i ∈ ys, i ∈ xs) (hkeeps : ∀ i, Live xs roots i → i ∈ ys)
    (i : Instance) : Live xs roots i ↔ Live ys roots i := by
  have hcalls : ∀ a b, (build ys).Calls a b → (build xs).Calls a b := by
    intro a b h
    obtain ⟨i, hi, j, hj, hcaller, hcallee, henters⟩ := calls_iff_mayEnter.mp h
    exact calls_iff_mayEnter.mpr ⟨i, hsub i hi, j, hsub j hj, hcaller, hcallee, henters⟩
  have hcontains : ∀ id, (build ys).contains id = true → (build xs).contains id = true := by
    intro id h
    obtain ⟨i, hi, hsame⟩ := contains_iff.mp h
    exact contains_iff.mpr ⟨i, mem_build.mpr (hsub i (mem_build.mp hi)), hsame⟩
  constructor
  · rintro ⟨hi, root, hroot, hc, node, hreach, hsame⟩
    have hrooted : (build xs).Reached roots root := ⟨root, hroot, hc, root, .refl, Name.same_self _⟩
    -- along the calls from the root everything is live, so each of these calls is kept
    have hstays : Relation.ReflTransGen (build ys).Calls root node ∧ (build xs).Reached roots node := by
      clear hsame
      induction hreach with
      | refl => exact ⟨.refl, hrooted⟩
      | tail _ hab ih =>
        obtain ⟨a, ha, b, hb, hcaller, hcallee, henters⟩ := calls_iff_mayEnter.mp hab
        have hlive : Live xs roots a :=
          ⟨ha, ih.2.congr (Name.same_symm hcaller)⟩
        refine ⟨ih.1.tail (calls_iff_mayEnter.mpr ?_), ih.2.calls hab⟩
        exact ⟨a, hkeeps a hlive, b, hkeeps b (hlive.mayEnter hb henters), hcaller, hcallee, henters⟩
    have hroot' : (build ys).contains root = true := by
      obtain ⟨r, hr, hrsame⟩ := contains_iff.mp hc
      have hrlive : Live xs roots r :=
        ⟨mem_build.mp hr, hrooted.congr (Name.same_symm hrsame)⟩
      exact contains_iff.mpr ⟨r, mem_build.mpr (hkeeps r hrlive), hrsame⟩
    have hlive : Live xs roots i := ⟨hi, root, hroot, hc, node, hreach, hsame⟩
    exact ⟨hkeeps i hlive, root, hroot, hroot', node, hstays.1, hsame⟩
  · rintro ⟨hi, root, hroot, hc, node, hreach, hsame⟩
    refine ⟨hsub i hi, root, hroot, hcontains root hc, node, ?_, hsame⟩
    exact Relation.ReflTransGen.mono hcalls _ _ hreach

end CallGraph

end LockAudit
