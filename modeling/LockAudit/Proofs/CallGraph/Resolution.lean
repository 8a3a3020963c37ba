import LockAudit.Proofs.Program.Consistency

/-! # Callees are nodes joined by edges

Building a call graph resolves every call once and files the callees twice: as edges, and in the table by
caller and call site. Whatever the table lists for a caller is a node, and an edge leads there.
-/

namespace LockAudit

def Instance.calls (i : Instance) : List Call :=
  (i.body.map Body.calls).getD []

theorem Instance.mem_calls {i : Instance} {c : Call} :
    c ∈ i.calls ↔ ∃ body, i.body = some body ∧ c ∈ body.calls := by
  unfold calls
  cases i.body <;> simp

namespace CallEdge

def ends (e : CallEdge) : Name × Name :=
  (e.caller.canonical, e.callee.canonical)

theorem sameEnds_iff {a b : CallEdge} : a.sameEnds b = true ↔ a.ends = b.ends := by
  simp only [sameEnds, ends, Bool.and_eq_true, Name.same_iff, Prod.mk.injEq]

def key (e : CallEdge) : (Name × Name) × Name :=
  (e.ends, e.site.canonical)

theorem sameKey_iff {a b : CallEdge} : a.sameKey b = true ↔ a.key = b.key := by
  simp only [sameKey, key, Bool.and_eq_true, sameEnds_iff, Name.same_iff, Prod.mk.injEq]

end CallEdge

namespace CallGraph

open CallEdge

def Calls (g : CallGraph) (caller callee : Name) : Prop :=
  ∃ e ∈ g.edges, e.caller.same caller = true ∧ e.callee.same callee = true

theorem calls_iff {g : CallGraph} {caller callee : Name} :
    g.Calls caller callee ↔ (caller.canonical, callee.canonical) ∈ g.edges.map ends := by
  simp only [Calls, List.mem_map, ends, Prod.mk.injEq, Name.same_iff]

theorem contains_iff {g : CallGraph} {id : Name} :
    g.contains id = true ↔ ∃ i ∈ g.instances, i.id.same id = true := by
  simp only [contains, instance?, List.find?_isSome]

/-! ### Edges -/

/-- An edge as it is added: it takes the name of the callee from an edge with the same ends, and a number for
a call site without a name. -/
def entered (edges : List CallEdge) (e : CallEdge) : CallEdge :=
  let parallel := edges.filter e.sameEnds
  { e with
    callee := match parallel with
      | first :: _ => first.callee
      | [] => e.callee
    site := if e.site == .null then nextSite (parallel.map CallEdge.site) else e.site }

theorem addEdge_eq (edges : List CallEdge) (e : CallEdge) :
    addEdge edges e =
      if (edges.filter e.sameEnds).any (entered edges e).sameKey then
        edges.map fun k => if k.sameKey (entered edges e) then { entered edges e with site := k.site } else k
      else edges ++ [entered edges e] :=
  rfl

theorem ends_entered (edges : List CallEdge) (e : CallEdge) : (entered edges e).ends = e.ends := by
  unfold entered
  cases hp : edges.filter e.sameEnds with
  | nil => rfl
  | cons first rest =>
    have hfirst : first ∈ edges.filter e.sameEnds := by simp [hp]
    have hsame := sameEnds_iff.mp (List.mem_filter.mp hfirst).2
    have hcallee : first.callee.canonical = e.callee.canonical := congrArg Prod.snd hsame.symm
    simp only [ends, hcallee]

theorem any_sameKey_iff (edges : List CallEdge) (e : CallEdge) :
    (edges.filter e.sameEnds).any (entered edges e).sameKey = true ↔
      (entered edges e).key ∈ edges.map key := by
  simp only [List.any_eq_true, List.mem_filter, List.mem_map, sameKey_iff, sameEnds_iff]
  constructor
  · rintro ⟨k, ⟨hk, _⟩, hkey⟩
    exact ⟨k, hk, hkey.symm⟩
  · rintro ⟨k, hk, hkey⟩
    have hends : k.ends = (entered edges e).ends := congrArg Prod.fst hkey
    exact ⟨k, ⟨hk, by rw [hends, ends_entered]⟩, hkey.symm⟩

/-- An edge adds its key behind the others unless it is there. -/
theorem keys_addEdge (edges : List CallEdge) (e : CallEdge) :
    (addEdge edges e).map key =
      if (entered edges e).key ∈ edges.map key then edges.map key
      else edges.map key ++ [(entered edges e).key] := by
  rw [addEdge_eq]
  simp only [any_sameKey_iff]
  split
  · -- an edge that is overwritten keeps its ends and its site
    rw [List.map_map]
    refine List.map_congr_left fun k _ => ?_
    simp only [Function.comp_apply]
    split
    · rename_i hkey
      have hends : k.ends = (entered edges e).ends := congrArg Prod.fst (sameKey_iff.mp hkey)
      exact Prod.ext hends.symm rfl
    · rfl
  · rw [List.map_append, List.map_singleton]

theorem mem_keys_addEdge (edges : List CallEdge) (e : CallEdge) (x : (Name × Name) × Name) :
    x ∈ (addEdge edges e).map key ↔ x = (entered edges e).key ∨ x ∈ edges.map key := by
  rw [keys_addEdge]
  split
  · rename_i hmem
    constructor
    · exact .inr
    · rintro (rfl | h)
      · exact hmem
      · exact h
  · rw [List.mem_append, List.mem_singleton]
    exact or_comm

theorem mem_ends_iff {edges : List CallEdge} {x : Name × Name} :
    x ∈ edges.map ends ↔ ∃ site, (x, site) ∈ edges.map key := by
  simp only [List.mem_map, key, Prod.mk.injEq]
  constructor
  · rintro ⟨e, he, rfl⟩
    exact ⟨_, e, he, rfl, rfl⟩
  · rintro ⟨_, e, he, hends, _⟩
    exact ⟨e, he, hends⟩

theorem mem_ends_addEdge (edges : List CallEdge) (e : CallEdge) (x : Name × Name) :
    x ∈ (addEdge edges e).map ends ↔ x = e.ends ∨ x ∈ edges.map ends := by
  have hentered : ∀ site, (x, site) = (entered edges e).key ↔
      x = e.ends ∧ site = (entered edges e).site.canonical := by
    intro site
    rw [key, Prod.mk.injEq, ends_entered]
  simp only [mem_ends_iff, mem_keys_addEdge, exists_or, hentered, exists_and_left, exists_eq, and_true]

theorem mem_ends_foldl_addEdge (es edges : List CallEdge) (x : Name × Name) :
    x ∈ (es.foldl addEdge edges).map ends ↔ x ∈ es.map ends ∨ x ∈ edges.map ends := by
  induction es generalizing edges with
  | nil => simp
  | cons e es ih =>
    rw [List.foldl_cons, ih, mem_ends_addEdge, List.map_cons, List.mem_cons, or_left_comm, or_assoc]

/-! ### The table of calls -/

/-- An entry of the table has the callees of a call at its place. -/
theorem foldl_enterCall {calls rs : List Resolution} {table : List ((Name × Name) × List Name)}
    (hsub : ∀ r ∈ rs, r ∈ calls)
    (htable : ∀ t ∈ table, ∃ r ∈ calls, samePlace t.1 r.place = true ∧ t.2 = r.callees) :
    ∀ t ∈ rs.foldl enterCall table, ∃ r ∈ calls, samePlace t.1 r.place = true ∧ t.2 = r.callees := by
  induction rs generalizing table with
  | nil => exact htable
  | cons r rs ih =>
    obtain ⟨hr, hrs⟩ := List.forall_mem_cons.mp hsub
    refine ih hrs ?_
    unfold enterCall
    split
    · intro t ht
      obtain ⟨u, hu, rfl⟩ := List.mem_map.mp ht
      split
      · rename_i hplace
        exact ⟨r, hr, hplace, rfl⟩
      · exact htable u hu
    · refine List.forall_mem_append.mpr ⟨htable, ?_⟩
      simp only [List.mem_singleton, forall_eq]
      exact ⟨r, hr, by simp [samePlace], rfl⟩

theorem mem_resolve {nodes : List Instance} {c : Call} {id : Name} (h : id ∈ resolve nodes c) :
    ∃ i ∈ nodes, i.id.same id = true := by
  unfold resolve at h
  split at h
  · obtain ⟨i, hi, rfl⟩ := List.mem_map.mp h
    exact ⟨i, (List.mem_filter.mp hi).1, Name.same_self _⟩
  · split at h
    · rename_i hany
      obtain rfl := List.mem_singleton.mp h
      exact List.any_eq_true.mp hany
    · cases h

def resolution (nodes : List Instance) (i : Instance) (c : Call) : Resolution :=
  { caller := i.id, call := c, callees := resolve nodes c }

theorem mem_resolutions_iff {nodes : List Instance} {r : Resolution} :
    r ∈ resolutions nodes ↔ ∃ i ∈ nodes, ∃ c ∈ i.calls, r = resolution nodes i c := by
  rw [resolutions, List.mem_flatMap]
  refine exists_congr fun i => and_congr_right fun _ => ?_
  unfold Instance.calls
  cases i.body with
  | none => simp
  | some body => simp only [Option.map_some, Option.getD_some, List.mem_map, resolution, eq_comm]

theorem mem_resolutions {nodes : List Instance} {r : Resolution} (h : r ∈ resolutions nodes)
    {id : Name} (hid : id ∈ r.callees) : ∃ i ∈ nodes, i.id.same id = true := by
  obtain ⟨_, _, call, _, rfl⟩ := mem_resolutions_iff.mp h
  exact mem_resolve hid

/-! ### The graph that is built -/

variable {instances : List Instance} {caller callee site : Name}

theorem mem_build {i : Instance} : i ∈ (build instances).instances ↔ i ∈ instances :=
  (orderOn_perm Instance.id instances).mem_iff

theorem calls_build_iff : (build instances).Calls caller callee ↔
    ∃ r ∈ resolutions (build instances).instances, r.caller.same caller = true ∧
      ∃ id ∈ r.callees, id.same callee = true := by
  have hedges : (build instances).edges =
      ((resolutions (build instances).instances).flatMap Resolution.edges).foldl addEdge [] := rfl
  rw [calls_iff, hedges, mem_ends_foldl_addEdge]
  simp only [List.map_nil, List.not_mem_nil, or_false, List.mem_map, List.mem_flatMap, Resolution.edges,
    Name.same_iff]
  constructor
  · rintro ⟨_, ⟨r, hr, id, hid, rfl⟩, he⟩
    obtain ⟨hcaller, hcallee⟩ := Prod.mk.inj he
    exact ⟨r, hr, hcaller, id, hid, hcallee⟩
  · rintro ⟨r, hr, hcaller, id, hid, hcallee⟩
    exact ⟨_, ⟨r, hr, id, hid, rfl⟩, Prod.ext hcaller hcallee⟩

/-- Calls lead to nodes. -/
theorem contains_of_calls (h : (build instances).Calls caller callee) :
    (build instances).contains callee = true := by
  obtain ⟨r, hr, _, id, hid, hsame⟩ := calls_build_iff.mp h
  obtain ⟨i, hi, hsame'⟩ := mem_resolutions hr hid
  refine contains_iff.mpr ⟨i, hi, Name.same_iff.mpr ?_⟩
  exact (Name.same_iff.mp hsame').trans (Name.same_iff.mp hsame)

/-- What the table lists for a caller is joined to it by an edge. -/
theorem calls_of_mem_callees (h : callee ∈ (build instances).callees caller site) :
    (build instances).Calls caller callee := by
  unfold callees at h
  split at h
  · rename_i t ht
    have hplace : samePlace t.1 (caller, site) = true :=
      List.find?_some (p := fun t : (Name × Name) × List Name => samePlace t.1 (caller, site)) ht
    obtain ⟨r, hr, hr', hcallees⟩ := foldl_enterCall (fun _ => id) (by simp) t (List.mem_of_find?_eq_some ht)
    refine calls_build_iff.mpr ⟨r, hr, ?_, callee, hcallees ▸ h, Name.same_self _⟩
    simp only [samePlace, Bool.and_eq_true, Name.same_iff, Resolution.place] at hplace hr'
    exact Name.same_iff.mpr (hr'.1.symm.trans hplace.1)
  · cases h

end CallGraph

end LockAudit
