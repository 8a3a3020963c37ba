import LockAudit.Program.Document
import LockAudit.Proofs.Liveness
import LockAudit.Proofs.Walk.Roots

/-! # The order of a document is irrelevant

Instances are sorted when the call graph is built, and roots when their paths are collected. So a document
may list its instances in any order, and its roots in any order and any number of times.
-/

namespace LockAudit

open Walk

namespace Document

def listed (name : String) (raw : Json) : Part (List Json) := do
  match ← optional name raw with
  | none => pure []
  | some v => elements v

/-- Two documents that have all fields in common, except that the instances are listed in another order,
and the roots in another order or repeatedly. -/
structure Rearranged (raw raw' : Json) : Prop where
  others : ∀ name, name ≠ "instances" → name ≠ "roots" → optional name raw' = optional name raw
  instances : ∃ xs ys, listed "instances" raw = .ok xs ∧ listed "instances" raw' = .ok ys ∧ ys.Perm xs
  roots : ∃ xs ys, listed "roots" raw = .ok xs ∧ listed "roots" raw' = .ok ys ∧ ∀ r, r ∈ ys ↔ r ∈ xs

/-! ### What is read -/

theorem listed_of_required {name : String} {raw v : Json} {xs : List Json}
    (hv : required name raw = .ok v) (hxs : elements v = .ok xs) : listed name raw = .ok xs := by
  have hoptional : optional name raw = .ok (some v) := by
    unfold required at hv
    split at hv
    · split at hv
      · rename_i hfield
        cases hv
        rw [optional, hfield]
      · cases hv
    · cases hv
  rw [listed, hoptional]
  exact hxs

theorem addInstance_eq_ok {known added : List Instance} {i : Instance}
    (h : addInstance true known i = .ok added) :
    added = known ++ [i] ∧ ∀ k ∈ known, k.id.same i.id = false := by
  unfold addInstance at h
  split at h
  · cases h
  · split at h
    · cases h
    · rename_i hnew
      cases h
      exact ⟨rfl, by simpa using hnew⟩

/-- Unique instances are those that are read from the elements, and no two have the same name. -/
theorem foldlM_addInstance {raw : List Json} {known is : List Instance}
    (h : raw.foldlM (fun known r => do addInstance true known (← functionInstance r)) known = .ok is)
    (hknown : (known.map fun i => i.id.canonical).Nodup) :
    is = known ++ raw.filterMap (fun r => (functionInstance r).toOption) ∧
      (is.map fun i => i.id.canonical).Nodup := by
  induction raw generalizing known with
  | nil =>
    cases h
    exact ⟨by simp, hknown⟩
  | cons r raw ih =>
    rw [List.foldlM_cons] at h
    obtain ⟨added, hadded, h⟩ := except_bind_eq_ok h
    obtain ⟨i, hi, hadded⟩ := except_bind_eq_ok hadded
    obtain ⟨rfl, hnew⟩ := addInstance_eq_ok hadded
    have hnodup : ((known ++ [i]).map fun i => i.id.canonical).Nodup := by
      rw [List.map_append, List.nodup_append]
      refine ⟨hknown, List.nodup_singleton _, ?_⟩
      intro a ha b hb hab
      obtain ⟨k, hk, rfl⟩ := List.mem_map.mp ha
      obtain rfl := List.mem_singleton.mp hb
      have hsame := hnew k hk
      rw [Name.same_iff.mpr hab] at hsame
      cases hsame
    obtain ⟨his, hdistinct⟩ := ih h hnodup
    refine ⟨?_, hdistinct⟩
    rw [his, List.filterMap_cons, hi, List.append_assoc]
    rfl

structure Reads (raw : Json) (xs rs : List Json) (p : Program) : Prop where
  instances : listed "instances" raw = .ok xs
  roots : listed "roots" raw = .ok rs
  unit : optionalOr "unit" (.str "") raw = .ok p.unit
  codegen : flag "codegen" true raw = .ok p.codegen
  buildScript : flag "build_script" false raw = .ok p.buildScript
  read : p.instances = xs.filterMap fun r => (functionInstance r).toOption
  distinct : (p.instances.map fun i => i.id.canonical).Nodup
  given : p.roots = if rs.isEmpty then Program.defaultRoots p.instances else rs

theorem exists_reads {raw : Json} {p : Program} (h : program true raw = .ok p) :
    ∃ xs rs, Reads raw xs rs p := by
  unfold program at h
  obtain ⟨v, hv, h⟩ := except_bind_eq_ok h
  obtain ⟨xs, hxs, h⟩ := except_bind_eq_ok h
  obtain ⟨is, his, h⟩ := except_bind_eq_ok h
  obtain ⟨unit, hunit, h⟩ := except_bind_eq_ok h
  obtain ⟨field, hfield, h⟩ := except_bind_eq_ok h
  obtain ⟨rs, hlisted, h⟩ : ∃ rs, listed "roots" raw = .ok rs ∧ (do
      let codegen ← flag "codegen" true raw
      let buildScript ← flag "build_script" false raw
      if rs.isEmpty && !haveOrder (Program.bodied is) then throw DocumentFault.wrongType
      return Program.make unit is rs codegen buildScript) = Except.ok p := by
    rw [listed, hfield]
    cases field <;> exact except_bind_eq_ok h
  obtain ⟨codegen, hcodegen, h⟩ := except_bind_eq_ok h
  obtain ⟨buildScript, hbuildScript, h⟩ := except_bind_eq_ok h
  split at h
  · cases h
  · cases h
    obtain ⟨hread, hdistinct⟩ := foldlM_addInstance his List.nodup_nil
    exact ⟨xs, rs, listed_of_required hv hxs, hlisted, hunit, hcodegen, hbuildScript, hread, hdistinct, rfl⟩

theorem Rearranged.optionalOr_eq {raw raw' : Json} (h : Rearranged raw raw') (name : String)
    (hinstances : name ≠ "instances") (hroots : name ≠ "roots") (absent : Json) :
    optionalOr name absent raw' = optionalOr name absent raw := by
  rw [optionalOr, optionalOr, h.others name hinstances hroots]

end Document

/-! ### Roots -/

/-- Roots that are texts are sorted into one list, however often and in whatever order they are given. -/
theorem Walk.sortedRoots_eq {roots roots' : List Name} (htexts : ∀ r ∈ roots, r.isText = true)
    (h : ∀ r, r ∈ roots' ↔ r ∈ roots) : sortedRoots roots' = sortedRoots roots := by
  have htexts' : ∀ r ∈ roots', r.isText = true := fun r hr => htexts r ((h r).mp hr)
  refine eq_of_rising id (sortedRoots_rising htexts') (sortedRoots_rising htexts) fun r => ?_
  rw [mem_sortedRoots_iff htexts', mem_sortedRoots_iff htexts, h]

theorem Walk.collect_eq_of_roots {g : CallGraph} {roots roots' : List Name}
    (htexts : ∀ r ∈ roots, r.isText = true) (h : ∀ r, r ∈ roots' ↔ r ∈ roots) (options : Options)
    (fuel : Nat) (clock : Clock) :
    collect g options fuel clock roots' = collect g options fuel clock roots := by
  have hsorted := sortedRoots_eq htexts h
  have hcheck : checkRoots g roots' = checkRoots g roots := by
    unfold checkRoots
    rw [hsorted, not_stray_of_texts htexts, not_stray_of_texts fun r hr => htexts r ((h r).mp hr)]
  unfold collect
  rw [hcheck, hsorted]

/-! ### Instances -/

section Instances

variable {xs ys : List Instance} (h : ys.Perm xs)

include h

theorem CallGraph.build_eq_of_perm (hx : DistinctlyNamed xs) (hy : DistinctlyNamed ys) :
    build ys = build xs := by
  have hnodes : orderOn Instance.id ys = orderOn Instance.id xs :=
    eq_of_rising Instance.id hy.rising hx.rising fun i =>
      mem_build.trans (h.mem_iff.trans mem_build.symm)
  rw [build, build, hnodes]

theorem CallGraph.fault?_eq_of_perm (hx : ∀ i ∈ xs, i.id.isText = true) : fault? ys = fault? xs := by
  have hy : ∀ i ∈ ys, i.id.isText = true := fun i hi => hx i (h.mem_iff.mp hi)
  rw [fault?, fault?, haveOrder_of_texts (List.forall_mem_map.mpr hx),
    haveOrder_of_texts (List.forall_mem_map.mpr hy), h.any_eq, h.all_eq]

theorem DistinctlyNamed.of_perm (hx : DistinctlyNamed xs) : DistinctlyNamed ys :=
  ⟨fun i hi => hx.texts i (h.mem_iff.mp hi), (h.map Instance.id).nodup_iff.mpr hx.nodup⟩

theorem Program.mem_defaultRoots_of_perm (id : Name) :
    id ∈ defaultRoots ys ↔ id ∈ defaultRoots xs := by
  have hbodied : (bodied ys).Perm (bodied xs) := (h.filter _).map Instance.id
  rw [defaultRoots, defaultRoots, (orderOn_perm _ _).mem_iff, (orderOn_perm _ _).mem_iff,
    hbodied.mem_iff]

end Instances

/-! ### Documents -/

theorem Program.ofDocument_eq_ok {raw : Json} {p : Program} (h : ofDocument raw = .ok p) :
    (∃ xs rs, Document.Reads raw xs rs p) ∧ p.check = .ok () := by
  obtain ⟨q, hq, h⟩ := except_bind_eq_ok h
  obtain ⟨⟨⟩, hcheck, h⟩ := except_bind_eq_ok h
  cases h
  exact ⟨Document.exists_reads (except_mapError_eq_ok hq), except_mapError_eq_ok hcheck⟩

def Analysis.told (a : Analysis) : Option String × List Report × List LogRecord × Clock :=
  (a.verdict.skipText?, a.verdict.reports, a.log, a.clock)

/-- The programs differ at most in the order of their instances, and in that of their roots and how often
each is given. -/
structure Program.Reordered (p q : Program) : Prop where
  unit : q.unit = p.unit
  codegen : q.codegen = p.codegen
  buildScript : q.buildScript = p.buildScript
  instances : q.instances.Perm p.instances
  roots : ∀ r, r ∈ q.roots ↔ r ∈ p.roots

/-- Documents that are rearranged describe programs that differ in order alone. -/
theorem Document.Rearranged.reordered {raw raw' : Json} (h : Rearranged raw raw') {p q : Program}
    {xs rs xs' rs' : List Json} (hp : Reads raw xs rs p) (hq : Reads raw' xs' rs' q) : p.Reordered q := by
  obtain ⟨_, _, hxs, hxs', hperm⟩ := h.instances
  obtain ⟨_, _, hrs, hrs', hroots⟩ := h.roots
  cases Except.ok.inj (hxs.symm.trans hp.instances)
  cases Except.ok.inj (hxs'.symm.trans hq.instances)
  cases Except.ok.inj (hrs.symm.trans hp.roots)
  cases Except.ok.inj (hrs'.symm.trans hq.roots)
  have hinstances : q.instances.Perm p.instances := by
    rw [hp.read, hq.read]
    exact hperm.filterMap _
  refine ⟨?_, ?_, ?_, hinstances, ?_⟩
  · have hunit := h.optionalOr_eq "unit" (by decide) (by decide) (.str "")
    exact Except.ok.inj (hq.unit.symm.trans (hunit.trans hp.unit))
  · have hcodegen := hq.codegen
    rw [flag, h.optionalOr_eq "codegen" (by decide) (by decide)] at hcodegen
    exact Except.ok.inj (hcodegen.symm.trans hp.codegen)
  · have hbuild := hq.buildScript
    rw [flag, h.optionalOr_eq "build_script" (by decide) (by decide)] at hbuild
    exact Except.ok.inj (hbuild.symm.trans hp.buildScript)
  · -- either both documents name roots or neither does
    intro r
    have hempty : rs'.isEmpty = rs.isEmpty := by
      rw [Bool.eq_iff_iff, List.isEmpty_iff, List.isEmpty_iff, List.eq_nil_iff_forall_not_mem,
        List.eq_nil_iff_forall_not_mem]
      exact forall_congr' fun r => not_congr (hroots r)
    rw [hp.given, hq.given, hempty]
    split
    · exact Program.mem_defaultRoots_of_perm hinstances r
    · exact hroots r

/-- The analysis of a reordered program tells the same, as soon as graph, log and collected paths agree. -/
theorem Program.Reordered.analyze_eq {p q : Program} (h : p.Reordered q) (hp : p.check = .ok ())
    (hq : q.check = .ok ())
    (hgraph : CallGraph.ofInstances q.instances = CallGraph.ofInstances p.instances)
    (hlog : CallGraph.buildLog q.instances = CallGraph.buildLog p.instances)
    {options : Options} {fuel : Nat} {clock : Clock}
    (hcollect : ∀ g, collect g options fuel clock q.roots = collect g options fuel clock p.roots) :
    (analyze options fuel clock q).map Analysis.told =
      (analyze options fuel clock p).map Analysis.told := by
  have hskip : skipReason? options q = skipReason? options p := by
    rw [skipReason?, skipReason?, h.unit, h.buildScript, h.codegen]
  unfold analyze
  rw [hskip]
  cases skipReason? options p with
  | some reason => rw [h.unit]
  | none =>
    simp only [analyzeUnit]
    rw [hp, hq, hgraph, hlog, h.unit]
    simp only [hcollect]
    cases CallGraph.ofInstances p.instances with
    | error e => rfl
    | ok g =>
      simp only [Except.mapError, bind, Except.bind]
      cases recursionLog g with
      | error e => rfl
      | ok recursion =>
        dsimp only
        cases collect g options fuel clock p.roots with
        | error e => rfl
        | ok c =>
          dsimp only
          cases Detection.detect options c.paths <;> rfl

/-- Two accepted documents with texts for names, one of which is the other rearranged, have one call graph,
the same paths in the same order, and analyses that tell the same. -/
theorem document_order_irrelevant {raw raw' : Json} (h : Document.Rearranged raw raw') {p q : Program}
    (hp : Program.ofDocument raw = .ok p) (hq : Program.ofDocument raw' = .ok q)
    (htexts : ∀ i ∈ p.instances, i.id.isText = true) :
    q.graph = p.graph ∧
      CallGraph.ofInstances q.instances = CallGraph.ofInstances p.instances ∧
      ∀ options fuel clock,
        collect q.graph options fuel clock q.roots = collect p.graph options fuel clock p.roots ∧
        (analyze options fuel clock q).map Analysis.told =
          (analyze options fuel clock p).map Analysis.told := by
  obtain ⟨⟨xs, rs, hreads⟩, hcheck⟩ := Program.ofDocument_eq_ok hp
  obtain ⟨⟨xs', rs', hreads'⟩, hcheck'⟩ := Program.ofDocument_eq_ok hq
  have hreordered := h.reordered hreads hreads'
  have hnamed : DistinctlyNamed p.instances := by
    refine ⟨htexts, List.Nodup.of_map Json.canonical ?_⟩
    rw [List.map_map]
    exact hreads.distinct
  have hbuild := CallGraph.build_eq_of_perm hreordered.instances hnamed
    (hnamed.of_perm hreordered.instances)
  have hgraph : CallGraph.ofInstances q.instances = CallGraph.ofInstances p.instances := by
    rw [CallGraph.ofInstances, CallGraph.ofInstances,
      CallGraph.fault?_eq_of_perm hreordered.instances htexts, hbuild]
  have hlog : CallGraph.buildLog q.instances = CallGraph.buildLog p.instances := by
    rw [CallGraph.buildLog, CallGraph.buildLog, hbuild]
  have hroots : ∀ r ∈ p.roots, r.isText = true := by
    intro r hr
    obtain ⟨i, hi, hsame⟩ := p.exists_instance_of_root hcheck hr
    exact Name.isText_of_same hsame (htexts i hi)
  refine ⟨hbuild, hgraph, fun options fuel clock => ?_⟩
  have hcollect : ∀ g, collect g options fuel clock q.roots = collect g options fuel clock p.roots :=
    fun g => collect_eq_of_roots hroots hreordered.roots options fuel clock
  refine ⟨?_, hreordered.analyze_eq hcheck hcheck' hgraph hlog hcollect⟩
  rw [Program.graph, Program.graph, hbuild, hcollect]

/-- A document with two functions, in the given order and with the given roots, of which `main` acquires
one lock twice. -/
def relockingDocument (names roots : List String) : Json :=
  let acquire (guard location : String) : Json :=
    .obj [("op", .str "acquire"), ("guard", .str guard), ("lock", .obj [("static", .str "A")]),
      ("location", .str location)]
  let function (name : String) : Json :=
    .obj [("id", .str name), ("body", .obj [("blocks", .arr [.obj [("statements",
      .arr (if name = "main" then [acquire "a" "main.rs:1:1", acquire "b" "main.rs:2:1"] else []))]])])]
  .obj [("instances", .arr (names.map function)), ("roots", .arr (roots.map .str))]

theorem rearranged_relockingDocument :
    Document.Rearranged (relockingDocument ["main", "idle"] ["main", "idle"])
      (relockingDocument ["idle", "main"] ["idle", "main", "idle"]) := by
  refine ⟨?_, ⟨_, _, rfl, rfl, .swap _ _ []⟩, ⟨_, _, rfl, rfl, ?_⟩⟩
  · intro name hinstances hroots
    simp [Document.optional, relockingDocument, Json.field?, hinstances.symm, hroots.symm]
  · intro r
    simp [or_comm]

/-- Two functions in either order, with a root that is given twice. -/
theorem document_order_irrelevant_relocking :
    ∃ p q, Program.ofDocument (relockingDocument ["main", "idle"] ["main", "idle"]) = .ok p ∧
      Program.ofDocument (relockingDocument ["idle", "main"] ["idle", "main", "idle"]) = .ok q ∧
      q.ids ≠ p.ids ∧ q.roots ≠ p.roots ∧ q.graph = p.graph ∧
      collect q.graph {} 9 {} q.roots = collect p.graph {} 9 {} p.roots ∧
      (analyze {} 9 {} q).map Analysis.told = (analyze {} 9 {} p).map Analysis.told := by
  have hfirst : (Program.ofDocument (relockingDocument ["main", "idle"] ["main", "idle"])).map
      (fun p => (p.ids, p.roots)) =
        .ok ([.str "main", .str "idle"], [.str "main", .str "idle"]) := by
    decide +kernel
  have hsecond : (Program.ofDocument (relockingDocument ["idle", "main"] ["idle", "main", "idle"])).map
      (fun p => (p.ids, p.roots)) =
        .ok ([.str "idle", .str "main"], [.str "idle", .str "main", .str "idle"]) := by
    decide +kernel
  obtain ⟨p, hp, hp'⟩ := except_map_eq_ok hfirst
  obtain ⟨q, hq, hq'⟩ := except_map_eq_ok hsecond
  obtain ⟨hids, hroots⟩ := Prod.mk.inj hp'
  obtain ⟨hids', hroots'⟩ := Prod.mk.inj hq'
  have hall : ∀ id ∈ p.ids, Name.isText id = true := by
    rw [hids]
    decide
  have htexts : ∀ i ∈ p.instances, i.id.isText = true := fun i hi =>
    hall i.id (List.mem_map_of_mem hi)
  obtain ⟨hgraph, _, hsame⟩ := document_order_irrelevant rearranged_relockingDocument hp hq htexts
  refine ⟨p, q, hp, hq, ?_, ?_, hgraph, hsame {} 9 {}⟩
  · rw [hids, hids']
    decide
  · rw [hroots, hroots']
    decide

end LockAudit
