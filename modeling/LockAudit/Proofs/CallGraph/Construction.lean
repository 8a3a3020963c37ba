import LockAudit.Proofs.CallGraph.Liveness

/-! # What a call graph says of the instances it is built from

A graph keeps the resolution of each call twice. An edge stays once a call has brought it in, so the edges at a
site are those of all calls there; the table of callees keeps the last of these calls only. What the table
lists is thus always joined by edges, but not the other way round.
-/

namespace LockAudit

/-- A direct call resolves to its callee, if that is an instance. An indirect one resolves to every instance
whose signature is the one of the call and not empty, and whose method is the one of the call, if it has one. -/
inductive ResolvesTo (instances : List Instance) (c : Call) : Name → Prop
  | direct {i : Instance} (hi : i ∈ instances) (hdirect : c.isIndirect = false) (hcallee : c.callee = i.id) :
    ResolvesTo instances c i.id
  | indirect {i : Instance} (hi : i ∈ instances) (hindirect : c.isIndirect = true)
    (hgiven : i.signature.truthy = true) (hsignature : c.signature.same i.signature = true)
    (hmethod : c.method = .null ∨ i.method.equals c.method = true) : ResolvesTo instances c i.id

def Instance.IsLastCall (i : Instance) (c : Call) : Prop :=
  ∃ before after, i.calls = before ++ c :: after ∧ ∀ d ∈ after, d.site ≠ c.site

theorem Instance.IsLastCall.mem {i : Instance} {c : Call} (h : i.IsLastCall c) : c ∈ i.calls := by
  obtain ⟨before, after, hcalls, _⟩ := h
  rw [hcalls]
  simp

theorem ResolvesTo.exists_instance {instances : List Instance} {c : Call} {id : Name}
    (h : ResolvesTo instances c id) : ∃ i ∈ instances, i.id = id := by
  cases h with
  | direct hi => exact ⟨_, hi, rfl⟩
  | indirect hi => exact ⟨_, hi, rfl⟩

namespace CallGraph

open CallEdge

def HasEdge (g : CallGraph) (caller callee site : Name) : Prop :=
  ∃ e ∈ g.edges, e.caller.same caller = true ∧ e.callee.same callee = true ∧ e.site.same site = true

/-- The nodes, edges, unresolved sites and callees of a graph are those of the instances. -/
structure Describes (g : CallGraph) (instances : List Instance) : Prop where
  nodes : ∀ id, g.contains id = true ↔ ∃ i ∈ instances, i.id = id
  edges : ∀ (caller callee : Name) (site : String), g.HasEdge caller callee (.str site) ↔
    ∃ i ∈ instances, i.id = caller ∧ ∃ c ∈ i.calls, c.site = .str site ∧ ResolvesTo instances c callee
  once : g.edges.Pairwise fun d e => d.sameKey e = false
  unresolved : ∀ (caller : Name) (site : String), g.isUnresolved caller (.str site) = true ↔
    ∃ i ∈ instances, i.id = caller ∧ ∃ c ∈ i.calls, c.site = .str site ∧ c.isIndirect = true ∧
      ∀ id, ¬ResolvesTo instances c id
  ascending : ∀ (caller : Name) (site : String),
    (g.callees caller (.str site)).Pairwise fun a b => compare a b = .lt
  callees : ∀ i ∈ instances, ∀ (c : Call) (site : String), i.IsLastCall c → c.site = .str site →
    ∀ id, id ∈ g.callees i.id (.str site) ↔ ResolvesTo instances c id
  uncalled : ∀ (caller : Name) (site : String),
    (∀ i ∈ instances, i.id = caller → ∀ c ∈ i.calls, c.site ≠ .str site) → g.callees caller (.str site) = []
  joined : ∀ (caller : Name) (site : String), ∀ callee ∈ g.callees caller (.str site),
    g.contains callee = true ∧ g.HasEdge caller callee (.str site)

/-! ### Edges at a site with a name -/

theorem site_entered_iff {edges : List CallEdge} {e : CallEdge} {site : String} :
    (entered edges e).site = .str site ↔ e.site = .str site := by
  have hnumber : ∀ sites : List Name, nextSite sites ≠ .str site := by
    intro sites h
    unfold nextSite at h
    dsimp only at h
    cases hf : ((List.range (sites.length + 1)).map fun i => Json.ofNat (sites.length + i)).find?
        fun n => !sites.any (Name.same n) with
    | none => rw [hf] at h; cases h
    | some n =>
      obtain ⟨i, _, rfl⟩ := List.mem_map.mp (List.mem_of_find?_eq_some hf)
      rw [hf] at h
      cases h
  simp only [entered]
  split
  · rename_i hnull
    rw [eq_of_beq hnull]
    constructor
    · exact fun h => absurd h (hnumber _)
    · exact fun h => nomatch h
  · rfl

theorem canonical_eq_str {n : Name} {s : String} : n.canonical = .str s ↔ n = .str s := by
  have h := Name.same_iff_eq (a := .str s) (b := n) rfl
  rwa [Name.same_iff, Json.canonical_str, eq_comm, eq_comm (a := Json.str s)] at h

theorem mem_keys_foldl_addEdge (es edges : List CallEdge) (x : Name × Name) (site : String) :
    (x, .str site) ∈ (es.foldl addEdge edges).map key ↔
      (∃ e ∈ es, e.ends = x ∧ e.site = .str site) ∨ (x, .str site) ∈ edges.map key := by
  induction es generalizing edges with
  | nil => simp
  | cons e es ih =>
    have hentered : (x, Json.str site) = (entered edges e).key ↔ e.ends = x ∧ e.site = .str site := by
      rw [key, Prod.mk.injEq, ends_entered, eq_comm (a := x), eq_comm (a := Json.str site), canonical_eq_str,
        site_entered_iff]
    rw [List.foldl_cons, ih, mem_keys_addEdge, hentered]
    simp only [List.mem_cons, exists_eq_or_imp]
    exact or_left_comm.trans or_assoc.symm

theorem nodup_keys_foldl_addEdge {edges : List CallEdge} (h : (edges.map key).Nodup) (es : List CallEdge) :
    ((es.foldl addEdge edges).map key).Nodup := by
  induction es generalizing edges with
  | nil => exact h
  | cons e es ih =>
    refine ih ?_
    rw [keys_addEdge]
    split
    · exact h
    · rename_i hnew
      refine h.append (List.nodup_singleton _) ?_
      intro k hk hk'
      rw [List.mem_singleton.mp hk'] at hk
      exact hnew hk

/-! ### What a call resolves to -/

variable {instances : List Instance}

theorem admits_iff {c : Call} {i : Instance} (hi : i.id.isText = true) :
    admits c i = true ↔ (c.isIndirect = false ∧ c.callee = i.id) ∨
      c.isIndirect = true ∧ i.signature.truthy = true ∧ c.signature.same i.signature = true ∧
        (c.method = .null ∨ i.method.equals c.method = true) := by
  unfold admits accepts
  cases c.isIndirect with
  | false => simp [Name.same_iff_eq hi, eq_comm (a := i.id)]
  | true => simp [and_assoc]

theorem resolvesTo_iff (htexts : ∀ i ∈ instances, i.id.isText = true) {c : Call} {id : Name} :
    ResolvesTo instances c id ↔ id ∈ (instances.filter (admits c)).map Instance.id := by
  simp only [List.mem_map, List.mem_filter]
  constructor
  · intro h
    cases h with
    | @direct i hi hdirect hcallee =>
      exact ⟨i, ⟨hi, (admits_iff (htexts i hi)).mpr (.inl ⟨hdirect, hcallee⟩)⟩, rfl⟩
    | @indirect i hi hindirect hgiven hsignature hmethod =>
      refine ⟨i, ⟨hi, (admits_iff (htexts i hi)).mpr (.inr ?_)⟩, rfl⟩
      exact ⟨hindirect, hgiven, hsignature, hmethod⟩
  · rintro ⟨i, ⟨hi, hadmits⟩, rfl⟩
    rcases (admits_iff (htexts i hi)).mp hadmits with ⟨hdirect, hcallee⟩ | ⟨hindirect, hgiven, hsignature, hmethod⟩
    · exact .direct hi hdirect hcallee
    · exact .indirect hi hindirect hgiven hsignature hmethod

theorem exists_mem_resolve_iff (htexts : ∀ i ∈ instances, i.id.isText = true) {c : Call} {id : Name} :
    (∃ x ∈ resolve (build instances).instances c, x.same id = true) ↔ ResolvesTo instances c id := by
  rw [exists_mem_resolve, resolvesTo_iff htexts]
  simp only [mem_build, List.mem_map, List.mem_filter, and_assoc]
  refine exists_congr fun i => and_congr_right fun hi => ?_
  rw [Name.same_iff_eq (htexts i hi), and_comm]

theorem mem_resolve_iff (htexts : ∀ i ∈ instances, i.id.isText = true) {c : Call} {id : Name} :
    id ∈ resolve (build instances).instances c ↔ ResolvesTo instances c id := by
  rw [← exists_mem_resolve_iff htexts]
  constructor
  · exact fun h => ⟨id, h, Name.same_self id⟩
  · rintro ⟨x, hx, hsame⟩
    obtain ⟨i, hi, hix⟩ := mem_resolve hx
    obtain rfl := (Name.same_iff_eq (htexts i (mem_build.mp hi))).mp hix
    rwa [(Name.same_iff_eq (htexts i (mem_build.mp hi))).mp hsame] at hx

theorem resolve_rising (h : DistinctlyNamed instances) (c : Call) :
    (resolve (build instances).instances c).Pairwise fun a b => compare a b = .lt := by
  unfold resolve
  split
  · exact List.pairwise_map.mpr (h.rising.filter _)
  · split
    · exact List.pairwise_singleton _ _
    · exact .nil

/-! ### The calls of one caller -/

theorem nodes_named (h : DistinctlyNamed instances) {i : Instance} (hi : i ∈ instances) :
    (build instances).instances.filter (fun j => j.id.same i.id) = [i] := by
  refine eq_of_rising Instance.id (h.rising.filter _) (List.pairwise_singleton _ _) fun j => ?_
  rw [List.mem_filter, mem_build, List.mem_singleton]
  constructor
  · rintro ⟨hj, hsame⟩
    exact List.inj_on_of_nodup_map h.nodup hj hi ((Name.same_iff_eq (h.texts j hj)).mp hsame)
  · rintro rfl
    exact ⟨hi, Name.same_self _⟩

/-- The call that is found last at a site is the one that counts. -/
theorem find?_calls_iff {i : Instance} {c : Call} {site : String} :
    (i.calls.reverse.find? fun d => d.site == .str site) = some c ↔ i.IsLastCall c ∧ c.site = .str site := by
  rw [List.find?_eq_some_iff_append, beq_iff_eq, and_comm]
  refine and_congr_left fun hsite => ?_
  have hother : ∀ d : Call, (!d.site == .str site) = true ↔ d.site ≠ c.site := by
    intro d
    rw [hsite, Bool.not_eq_true', beq_eq_false_iff_ne]
  simp only [hother]
  constructor
  · rintro ⟨after, before, hcalls, hafter⟩
    refine ⟨before.reverse, after.reverse, ?_, fun d hd => hafter d (List.mem_reverse.mp hd)⟩
    rw [← List.reverse_reverse i.calls, hcalls]
    simp
  · rintro ⟨before, after, hcalls, hafter⟩
    refine ⟨after.reverse, before.reverse, ?_, fun d hd => hafter d (List.mem_reverse.mp hd)⟩
    rw [hcalls]
    simp

theorem callees_eq_find? (h : DistinctlyNamed instances) {i : Instance} (hi : i ∈ instances) (site : String) :
    (build instances).callees i.id (.str site) =
      ((i.calls.reverse.find? fun c => c.site == .str site).map
        (resolve (build instances).instances)).getD [] := by
  have hplace : ((fun r : Resolution => samePlace r.place (i.id, .str site)) ∘
      resolution (build instances).instances i) = fun c => c.site == .str site := by
    funext c
    rw [Bool.eq_iff_iff, beq_iff_eq, ← canonical_eq_str]
    simp [samePlace, Resolution.place, Resolution.site, resolution, Name.same_iff]
  rw [callees_build, find?_place_of_caller, filter_resolutions, nodes_named h hi, List.flatMap_singleton,
    resolutionsOf_eq, ← List.map_reverse, List.find?_map, Option.map_map, hplace]
  rfl

theorem callees_of_isLastCall (h : DistinctlyNamed instances) {i : Instance} (hi : i ∈ instances) {c : Call}
    {site : String} (hlast : i.IsLastCall c) (hsite : c.site = .str site) :
    (build instances).callees i.id (.str site) = resolve (build instances).instances c := by
  rw [callees_eq_find? h hi, find?_calls_iff.mpr ⟨hlast, hsite⟩]
  rfl

theorem callees_of_not_instance (htexts : ∀ i ∈ instances, i.id.isText = true) {caller : Name}
    (h : ¬∃ i ∈ instances, i.id = caller) (site : Name) : (build instances).callees caller site = [] := by
  have hnone : (build instances).instances.filter (fun i => i.id.same caller) = [] := by
    refine List.filter_eq_nil_iff.mpr fun i hi hsame => h ⟨i, mem_build.mp hi, ?_⟩
    exact (Name.same_iff_eq (htexts i (mem_build.mp hi))).mp hsame
  rw [callees_build, find?_place_of_caller, filter_resolutions, hnone]
  rfl

/-- Unless no callees are listed at a place, they are those of the last call there. -/
theorem callees_cases (h : DistinctlyNamed instances) (caller : Name) (site : String) :
    (build instances).callees caller (.str site) = [] ∨
      ∃ i ∈ instances, i.id = caller ∧ ∃ c, i.IsLastCall c ∧ c.site = .str site ∧
        (build instances).callees caller (.str site) = resolve (build instances).instances c := by
  by_cases hcaller : ∃ i ∈ instances, i.id = caller
  · obtain ⟨i, hi, rfl⟩ := hcaller
    cases hfind : i.calls.reverse.find? fun c => c.site == .str site with
    | none =>
      rw [callees_eq_find? h hi, hfind]
      exact .inl rfl
    | some c =>
      obtain ⟨hlast, hsite⟩ := find?_calls_iff.mp hfind
      exact .inr ⟨i, hi, rfl, c, hlast, hsite, callees_of_isLastCall h hi hlast hsite⟩
  · exact .inl (callees_of_not_instance h.texts hcaller _)

/-! ### The tables of a graph -/

theorem contains_build_iff (htexts : ∀ i ∈ instances, i.id.isText = true) {id : Name} :
    (build instances).contains id = true ↔ ∃ i ∈ instances, i.id = id := by
  rw [contains_iff]
  simp only [mem_build]
  refine exists_congr fun i => and_congr_right fun hi => ?_
  exact Name.same_iff_eq (htexts i hi)

/-- At a site with a name, an edge is there for exactly the instances that a call at the site resolves to. -/
theorem hasEdge_build_iff (htexts : ∀ i ∈ instances, i.id.isText = true) {caller callee : Name}
    {site : String} :
    (build instances).HasEdge caller callee (.str site) ↔
      ∃ i ∈ instances, i.id = caller ∧ ∃ c ∈ i.calls, c.site = .str site ∧ ResolvesTo instances c callee := by
  have hkey : (build instances).HasEdge caller callee (.str site) ↔
      ((caller.canonical, callee.canonical), .str site) ∈ (build instances).edges.map key := by
    simp only [HasEdge, List.mem_map, key, ends, Prod.mk.injEq, Name.same_iff, Json.canonical_str, and_assoc]
  have hedges : (build instances).edges =
      ((resolutions (build instances).instances).flatMap Resolution.edges).foldl addEdge [] := rfl
  rw [hkey, hedges, mem_keys_foldl_addEdge, List.map_nil, or_iff_left List.not_mem_nil]
  constructor
  · rintro ⟨e, he, hends, hsite⟩
    obtain ⟨r, hr, he⟩ := List.mem_flatMap.mp he
    obtain ⟨i, hi, c, hc, rfl⟩ := mem_resolutions_iff.mp hr
    obtain ⟨id, hid, rfl⟩ := List.mem_map.mp he
    obtain ⟨hcaller, hcallee⟩ := Prod.mk.inj hends
    have hid' : i.id = caller := (Name.same_iff_eq (htexts i (mem_build.mp hi))).mp (Name.same_iff.mpr hcaller)
    refine ⟨i, mem_build.mp hi, hid', c, hc, hsite, ?_⟩
    exact (exists_mem_resolve_iff htexts).mp ⟨id, hid, Name.same_iff.mpr hcallee⟩
  · rintro ⟨i, hi, rfl, c, hc, hsite, hresolves⟩
    obtain ⟨id, hid, hsame⟩ := (exists_mem_resolve_iff htexts).mpr hresolves
    have hr := mem_resolutions_iff.mpr ⟨i, mem_build.mpr hi, c, hc, rfl⟩
    refine ⟨_, List.mem_flatMap.mpr ⟨_, hr, List.mem_map_of_mem hid⟩, ?_, hsite⟩
    exact Prod.ext rfl (Name.same_iff.mp hsame)

theorem once_build : (build instances).edges.Pairwise fun d e => d.sameKey e = false := by
  have hnil : (([] : List CallEdge).map key).Nodup := List.nodup_nil
  have hkeys : ((build instances).edges.map key).Nodup := nodup_keys_foldl_addEdge hnil _
  refine (List.pairwise_map.mp hkeys).imp fun hne => ?_
  rw [Bool.eq_false_iff, ne_eq, sameKey_iff]
  exact hne

/-- A site with a name is unresolved if an indirect call there resolves to nothing. -/
theorem isUnresolved_build_iff (htexts : ∀ i ∈ instances, i.id.isText = true) {caller : Name} {site : String} :
    (build instances).isUnresolved caller (.str site) = true ↔
      ∃ i ∈ instances, i.id = caller ∧ ∃ c ∈ i.calls, c.site = .str site ∧ c.isIndirect = true ∧
        ∀ id, ¬ResolvesTo instances c id := by
  have hnone : ∀ c : Call, (resolve (build instances).instances c).isEmpty = true ↔
      ∀ id, ¬ResolvesTo instances c id := by
    intro c
    rw [List.isEmpty_iff, List.eq_nil_iff_forall_not_mem]
    exact forall_congr' fun id => not_congr (mem_resolve_iff htexts)
  rw [isUnresolved_build, List.any_eq_true]
  constructor
  · rintro ⟨r, hr, h⟩
    obtain ⟨i, hi, c, hc, rfl⟩ := mem_resolutions_iff.mp hr
    simp only [Resolution.isUnresolved, samePlace, Resolution.place, Bool.and_eq_true] at h
    obtain ⟨⟨hindirect, hempty⟩, hcaller, hsite⟩ := h
    refine ⟨i, mem_build.mp hi, (Name.same_iff_eq (htexts i (mem_build.mp hi))).mp hcaller, c, hc, ?_,
      hindirect, (hnone c).mp hempty⟩
    rwa [Name.same_iff, Json.canonical_str, canonical_eq_str] at hsite
  · rintro ⟨i, hi, rfl, c, hc, hsite, hindirect, hresolves⟩
    refine ⟨_, mem_resolutions_iff.mpr ⟨i, mem_build.mpr hi, c, hc, rfl⟩, ?_⟩
    simp [Resolution.isUnresolved, samePlace, Resolution.place, Resolution.site, resolution, hsite, hindirect,
      (hnone c).mpr hresolves]

/-- A graph can be built of instances that have distinct texts for names and names that can be looked up, and
it describes them. -/
theorem graph_describes_instances (hnamed : DistinctlyNamed instances)
    (hkeyed : ∀ i ∈ instances, instanceIsKeyed i = true) :
    ∃ g, ofInstances instances = .ok g ∧ g.Describes instances := by
  have hcallees : ∀ (c : Call) (id : Name), id ∈ resolve (build instances).instances c ↔
      ResolvesTo instances c id := fun c id => mem_resolve_iff hnamed.texts
  refine ⟨build instances, ofInstances_of_texts hnamed.texts hkeyed, ?_⟩
  constructor
  case nodes => exact fun id => contains_build_iff hnamed.texts
  case edges => exact fun caller callee site => hasEdge_build_iff hnamed.texts
  case once => exact once_build
  case unresolved => exact fun caller site => isUnresolved_build_iff hnamed.texts
  case ascending =>
    intro caller site
    rcases callees_cases hnamed caller site with hnone | ⟨i, hi, rfl, c, hlast, hsite, hlisted⟩
    · rw [hnone]
      exact .nil
    · rw [hlisted]
      exact resolve_rising hnamed c
  case callees =>
    intro i hi c site hlast hsite id
    rw [callees_of_isLastCall hnamed hi hlast hsite]
    exact hcallees c id
  case uncalled =>
    intro caller site hnot
    rcases callees_cases hnamed caller site with hnone | ⟨i, hi, hid, c, hlast, hsite, _⟩
    · exact hnone
    · exact absurd hsite (hnot i hi hid c hlast.mem)
  case joined =>
    intro caller site callee hcallee
    rcases callees_cases hnamed caller site with hnone | ⟨i, hi, hid, c, hlast, hsite, hlisted⟩
    · rw [hnone] at hcallee
      cases hcallee
    · rw [hlisted, hcallees] at hcallee
      exact ⟨(contains_build_iff hnamed.texts).mpr hcallee.exists_instance,
        (hasEdge_build_iff hnamed.texts).mpr ⟨i, hi, hid, c, hlast.mem, hsite, hcallee⟩⟩

/-! ### Two calls at one site -/

def callAt (site : String) (callee signature : Name) : Call :=
  { site := .str site, callee, signature, method := .null, target := none, destination := .null
    location := .unknown }

def callerOf (id signature : String) (calls : List Call) : Instance :=
  { id := .str id, defPath := .str id, typeArgs := [], signature := .str signature, method := .null
    body := some { blocks := calls.map fun c => { statements := [], terminator := .call c } } }

/-- `main` calls `f` and then, at the same site, whatever has a signature; at another site it calls through a
signature that nothing has. -/
def callingTwice : Instance :=
  callerOf "main" "" [callAt "s" (.str "f") .null, callAt "s" .null (.str "fn()"),
    callAt "t" .null (.str "fn(u8)")]

def sharingSite : List Instance :=
  [callerOf "h" "fn()" [], callingTwice, callerOf "g" "fn()" [], callerOf "f" "" []]

/-- The edge of the first call stays, and the callees are those of the second. -/
theorem graph_describes_instances_sharingSite :
    ∃ g, ofInstances sharingSite = .ok g ∧ g.HasEdge (.str "main") (.str "f") (.str "s") ∧
      g.callees (.str "main") (.str "s") = [.str "g", .str "h"] ∧
      g.isUnresolved (.str "main") (.str "t") = true := by
  have hnamed : DistinctlyNamed sharingSite := by decide
  have hmain : callingTwice ∈ sharingSite := by decide
  have hresolves : ∀ c id, ResolvesTo sharingSite c id ↔
      id ∈ (sharingSite.filter (admits c)).map Instance.id := fun c id => resolvesTo_iff hnamed.texts
  obtain ⟨g, hg, h⟩ := graph_describes_instances hnamed (by decide)
  refine ⟨g, hg, ?_, ?_, ?_⟩
  · refine (h.edges _ _ _).mpr ⟨_, hmain, rfl, callAt "s" (.str "f") .null, by decide, rfl, ?_⟩
    exact (hresolves _ _).mpr (by decide)
  · have hlast : callingTwice.IsLastCall (callAt "s" .null (.str "fn()")) :=
      ⟨[callAt "s" (.str "f") .null], [callAt "t" .null (.str "fn(u8)")], rfl, by decide⟩
    have hcallees : (sharingSite.filter (admits (callAt "s" .null (.str "fn()")))).map Instance.id =
        [.str "h", .str "g"] := by decide
    refine eq_of_rising id (h.ascending _ _) (by decide) fun id => ?_
    refine (h.callees _ hmain _ _ hlast rfl id).trans ?_
    rw [hresolves, hcallees]
    simp [or_comm]
  · refine (h.unresolved _ _).mpr ⟨_, hmain, rfl, callAt "t" .null (.str "fn(u8)"), by decide, rfl, rfl, ?_⟩
    intro id hid
    have hnone : (sharingSite.filter (admits (callAt "t" .null (.str "fn(u8)")))).map Instance.id = [] := by
      decide
    rw [hresolves, hnone] at hid
    cases hid

end CallGraph

end LockAudit
