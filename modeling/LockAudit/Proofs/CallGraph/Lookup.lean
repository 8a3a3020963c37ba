import LockAudit.Proofs.CallGraph.Resolution

/-! # What a call graph answers

The table of a graph answers with the callees of the last call at a place, and a place is unresolved if
some call there is. So what a graph says of a caller depends on the calls of that caller alone, and which
instances these calls enter depends on the calls and on the instances that are there to be entered.
-/

namespace LockAudit.CallGraph

/-! ### Places -/

def placeKey (place : Name × Name) : Name × Name :=
  (place.1.canonical, place.2.canonical)

theorem samePlace_iff {a b : Name × Name} : samePlace a b = true ↔ placeKey a = placeKey b := by
  simp only [samePlace, placeKey, Bool.and_eq_true, Name.same_iff, Prod.mk.injEq]

theorem samePlace_congr {a b : Name × Name} (h : samePlace a b = true) (c : Name × Name) :
    samePlace a c = samePlace b c := by
  rw [Bool.eq_iff_iff, samePlace_iff, samePlace_iff, samePlace_iff.mp h]

/-- Entering a call makes its callees the answer at its place and leaves all other answers alone. -/
theorem find?_enterCall (table : List ((Name × Name) × List Name)) (r : Resolution)
    (place : Name × Name) :
    ((enterCall table r).find? fun t => samePlace t.1 place).map Prod.snd =
      if samePlace r.place place then some r.callees
      else (table.find? fun t => samePlace t.1 place).map Prod.snd := by
  unfold enterCall
  split
  · rename_i hany
    rw [List.find?_map, Option.map_map]
    have hplaces : (fun t : (Name × Name) × List Name => samePlace t.1 place) ∘
        (fun t => if samePlace t.1 r.place then (t.1, r.callees) else t) =
          fun t => samePlace t.1 place := by
      funext t
      simp only [Function.comp_apply]
      split <;> rfl
    rw [hplaces]
    cases hf : table.find? fun t => samePlace t.1 place with
    | none =>
      obtain ⟨t, ht, hsame⟩ := List.any_eq_true.mp hany
      have hnot : ¬ samePlace t.1 place = true := List.find?_eq_none.mp hf t ht
      rw [samePlace_congr hsame] at hnot
      rw [if_neg hnot]
      rfl
    | some t =>
      have ht : samePlace t.1 place = true :=
        List.find?_some (p := fun t : (Name × Name) × List Name => samePlace t.1 place) hf
      have hcongr : samePlace t.1 r.place = samePlace r.place place := by
        rw [samePlace_congr ht, Bool.eq_iff_iff, samePlace_iff, samePlace_iff, eq_comm]
      simp only [Option.map_some, Function.comp_apply, hcongr]
      split <;> rfl
  · rename_i hany
    rw [List.find?_append]
    by_cases hplace : samePlace r.place place = true
    · have hnone : (table.find? fun t => samePlace t.1 place) = none := by
        refine List.find?_eq_none.mpr fun t ht hsame => hany (List.any_eq_true.mpr ⟨t, ht, ?_⟩)
        rw [samePlace_congr hsame, samePlace_iff, samePlace_iff.mp hplace]
      simp [hnone, hplace]
    · simp [hplace]

theorem find?_foldl_enterCall (rs : List Resolution) (table : List ((Name × Name) × List Name))
    (place : Name × Name) :
    ((rs.foldl enterCall table).find? fun t => samePlace t.1 place).map Prod.snd =
      ((rs.reverse.find? fun r => samePlace r.place place).map Resolution.callees).or
        ((table.find? fun t => samePlace t.1 place).map Prod.snd) := by
  induction rs generalizing table with
  | nil => simp
  | cons r rs ih =>
    rw [List.foldl_cons, ih, find?_enterCall, List.reverse_cons, List.find?_append, Option.map_or,
      Option.or_assoc]
    by_cases hplace : samePlace r.place place = true
    · simp [hplace]
    · simp [hplace]

variable {instances : List Instance} {caller callee site : Name}

/-- The callees at a place are those of the last call there. -/
theorem callees_build : (build instances).callees caller site =
    (((resolutions (build instances).instances).reverse.find? fun r =>
      samePlace r.place (caller, site)).map Resolution.callees).getD [] := by
  have hfind := find?_foldl_enterCall (resolutions (build instances).instances) [] (caller, site)
  rw [List.find?_nil, Option.map_none, Option.or_none] at hfind
  have htable : (build instances).callTable =
      (resolutions (build instances).instances).foldl enterCall [] := rfl
  rw [← hfind, callees, htable]
  cases ((resolutions (build instances).instances).foldl enterCall []).find? fun t =>
    samePlace t.1 (caller, site) <;> rfl

/-- A place is unresolved if some call there is. -/
theorem isUnresolved_build : (build instances).isUnresolved caller site =
    (resolutions (build instances).instances).any fun r =>
      r.isUnresolved && samePlace r.place (caller, site) := by
  have hcovers := (eraseDupsBy_key placeKey
    (((resolutions (build instances).instances).filter Resolution.isUnresolved).map Resolution.place)).1
  rw [Bool.eq_iff_iff, isUnresolved, List.any_eq_true, List.any_eq_true]
  constructor
  · rintro ⟨place, hplace, hsame⟩
    obtain ⟨r, hr, rfl⟩ := List.mem_map.mp (mem_of_mem_eraseDupsBy hplace)
    obtain ⟨hmem, hunresolved⟩ := List.mem_filter.mp hr
    have hback : samePlace r.place (caller, site) = true :=
      samePlace_iff.mpr (samePlace_iff.mp hsame).symm
    exact ⟨r, hmem, by rw [hunresolved, hback]; rfl⟩
  · rintro ⟨r, hr, h⟩
    obtain ⟨hunresolved, hsame⟩ := Bool.and_eq_true_iff.mp h
    obtain ⟨place, hplace, hkey⟩ :=
      hcovers r.place (List.mem_map_of_mem (List.mem_filter.mpr ⟨hr, hunresolved⟩))
    exact ⟨place, hplace, samePlace_iff.mpr ((samePlace_iff.mp hsame).symm.trans hkey.symm)⟩

/-! ### The calls of one caller -/

def resolutionsOf (nodes : List Instance) (i : Instance) : List Resolution :=
  match i.body with
  | none => []
  | some body => body.calls.map fun call => { caller := i.id, call, callees := resolve nodes call }

theorem resolutionsOf_eq (nodes : List Instance) (i : Instance) :
    resolutionsOf nodes i = i.calls.map (resolution nodes i) := by
  unfold resolutionsOf Instance.calls
  cases i.body <;> rfl

theorem filter_resolutions (nodes : List Instance) (id : Name) :
    (resolutions nodes).filter (fun r => r.caller.same id) =
      (nodes.filter fun i => i.id.same id).flatMap (resolutionsOf nodes) := by
  have hall : ∀ is : List Instance, (is.flatMap (resolutionsOf nodes)).filter (fun r => r.caller.same id) =
      (is.filter fun i => i.id.same id).flatMap (resolutionsOf nodes) := by
    intro is
    induction is with
    | nil => rfl
    | cons i is ih =>
      have hcaller : ∀ r ∈ resolutionsOf nodes i, r.caller = i.id := by
        intro r hr
        rw [resolutionsOf_eq] at hr
        obtain ⟨call, _, rfl⟩ := List.mem_map.mp hr
        rfl
      rw [List.flatMap_cons, List.filter_append, ih, List.filter_cons]
      split
      · rename_i hsame
        rw [List.flatMap_cons, List.filter_eq_self.mpr fun r hr => by rw [hcaller r hr, hsame]]
      · rename_i hdiff
        rw [List.filter_eq_nil_iff.mpr fun r hr => by rw [hcaller r hr]; exact hdiff, List.nil_append]
  exact hall nodes

theorem caller_of_samePlace {r : Resolution} {id site : Name} (h : samePlace r.place (id, site) = true) :
    r.caller.same id = true :=
  (Bool.and_eq_true_iff.mp h).1

/-- The last call at a place is the last one that its caller makes there. -/
theorem find?_place_of_caller (rs : List Resolution) (id site : Name) :
    (rs.reverse.find? fun r => samePlace r.place (id, site)) =
      (rs.filter fun r => r.caller.same id).reverse.find? fun r => samePlace r.place (id, site) := by
  rw [← List.filter_reverse, List.find?_filter]
  congr 1
  funext r
  rw [Bool.eq_iff_iff, decide_eq_true_iff]
  exact ⟨fun hr => ⟨caller_of_samePlace hr, hr⟩, And.right⟩

/-- Two graphs in which a caller makes the same calls answer alike about it. -/
theorem answers_congr {xs ys : List Instance} {id : Name}
    (h : (resolutions (build xs).instances).filter (fun r => r.caller.same id) =
      (resolutions (build ys).instances).filter fun r => r.caller.same id) (site : Name) :
    (build xs).callees id site = (build ys).callees id site ∧
      (build xs).isUnresolved id site = (build ys).isUnresolved id site := by
  -- neither lookup sees a call of another caller
  have hany : ∀ rs : List Resolution,
      (rs.any fun r => r.isUnresolved && samePlace r.place (id, site)) =
        (rs.filter fun r => r.caller.same id).any fun r =>
          r.isUnresolved && samePlace r.place (id, site) := by
    intro rs
    rw [List.any_filter]
    congr 1
    funext r
    by_cases hr : samePlace r.place (id, site) = true
    · rw [caller_of_samePlace hr, Bool.true_and]
    · rw [Bool.eq_false_iff.mpr hr, Bool.and_false, Bool.and_false]
  rw [callees_build, callees_build, isUnresolved_build, isUnresolved_build, find?_place_of_caller, hany, h,
    ← find?_place_of_caller, ← hany]
  exact ⟨rfl, rfl⟩

/-! ### What a call may enter -/

def admits (c : Call) (i : Instance) : Bool :=
  if c.isIndirect then accepts c i else i.id.same c.callee

/-- Some call of the first instance may enter the second. -/
def MayEnter (i j : Instance) : Prop :=
  ∃ body, i.body = some body ∧ ∃ c ∈ body.calls, admits c j = true

/-- A call resolves to the nodes that admit it. -/
theorem exists_mem_resolve {nodes : List Instance} {c : Call} :
    (∃ id ∈ resolve nodes c, id.same callee = true) ↔
      ∃ j ∈ nodes, j.id.same callee = true ∧ admits c j = true := by
  unfold resolve admits
  split
  · constructor
    · rintro ⟨_, hid, hsame⟩
      obtain ⟨j, hj, rfl⟩ := List.mem_map.mp hid
      exact ⟨j, (List.mem_filter.mp hj).1, hsame, (List.mem_filter.mp hj).2⟩
    · rintro ⟨j, hj, hsame, haccepts⟩
      exact ⟨j.id, List.mem_map_of_mem (List.mem_filter.mpr ⟨hj, haccepts⟩), hsame⟩
  · constructor
    · rintro ⟨id, hid, hsame⟩
      split at hid
      · rename_i hany
        obtain rfl := List.mem_singleton.mp hid
        obtain ⟨j, hj, hcallee⟩ := List.any_eq_true.mp hany
        exact ⟨j, hj, Name.same_trans hcallee hsame, hcallee⟩
      · cases hid
    · rintro ⟨j, hj, hsame, hcallee⟩
      rw [if_pos (List.any_eq_true.mpr ⟨j, hj, hcallee⟩)]
      refine ⟨c.callee, List.mem_singleton_self _, Name.same_iff.mpr ?_⟩
      exact (Name.same_iff.mp hcallee).symm.trans (Name.same_iff.mp hsame)

/-- Calls lead from one name to another if an instance of the first may enter one of the second. -/
theorem calls_iff_mayEnter : (build instances).Calls caller callee ↔
    ∃ i ∈ instances, ∃ j ∈ instances,
      i.id.same caller = true ∧ j.id.same callee = true ∧ MayEnter i j := by
  rw [calls_build_iff]
  constructor
  · rintro ⟨r, hr, hcaller, hcallee⟩
    obtain ⟨i, hi, c, hc, rfl⟩ := mem_resolutions_iff.mp hr
    obtain ⟨body, hbody, hc⟩ := Instance.mem_calls.mp hc
    obtain ⟨j, hj, hsame, hadmits⟩ := exists_mem_resolve.mp hcallee
    exact ⟨i, mem_build.mp hi, j, mem_build.mp hj, hcaller, hsame, body, hbody, c, hc, hadmits⟩
  · rintro ⟨i, hi, j, hj, hcaller, hcallee, body, hbody, c, hc, hadmits⟩
    have hcall : c ∈ i.calls := Instance.mem_calls.mpr ⟨body, hbody, hc⟩
    refine ⟨_, mem_resolutions_iff.mpr ⟨i, mem_build.mpr hi, c, hcall, rfl⟩, hcaller, ?_⟩
    exact exists_mem_resolve.mpr ⟨j, mem_build.mpr hj, hcallee, hadmits⟩

end LockAudit.CallGraph
