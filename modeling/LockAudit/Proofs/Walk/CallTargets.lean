import LockAudit.Proofs.CallGraph.Lookup
import LockAudit.Proofs.Order.Sorted
import LockAudit.Proofs.Walk.Returning

/-! # What a call goes on with

A callee with a body is followed as long as the bounds allow it. Behind a call that follows no callee the
walk goes on at the target. Where some callees are followed and others are not, the others have no part in
what comes next: nothing stands for their return.
-/

namespace LockAudit

/-! ### Callees are told apart -/

theorem CallGraph.nodup_resolve {nodes : List Instance}
    (h : (nodes.map fun i => i.id.canonical).Nodup) (c : Call) :
    ((resolve nodes c).map Json.canonical).Nodup := by
  unfold resolve
  split
  · rw [List.map_map]
    exact h.sublist (List.filter_sublist.map _)
  · split
    · exact List.nodup_singleton _
    · exact List.nodup_nil

theorem CallGraph.nodup_callees {instances : List Instance}
    (h : (instances.map fun i => i.id.canonical).Nodup) (caller site : Name) :
    (((build instances).callees caller site).map Json.canonical).Nodup := by
  have hnodes : ((build instances).instances.map fun i => i.id.canonical).Nodup :=
    ((orderOn_perm Instance.id instances).map _).nodup_iff.mpr h
  rw [callees_build]
  cases hr : (resolutions (build instances).instances).reverse.find? fun r =>
      samePlace r.place (caller, site) with
  | none => exact List.nodup_nil
  | some r =>
    have hmem : r ∈ resolutions (build instances).instances :=
      List.mem_reverse.mp (List.mem_of_find?_eq_some hr)
    obtain ⟨_, _, call, _, rfl⟩ := mem_resolutions_iff.mp hmem
    exact nodup_resolve hnodes call

namespace Walk

variable {g : CallGraph} {options : Options} {m : State} {frame : Frame} {callers : List Frame}

/-! ### The states after a call -/

theorem key_push_inj (hm : m.frames = frame :: callers) {target : Option Target} {destination x y : Name}
    (h : (m.push x target destination).key = (m.push y target destination).key) :
    x.canonical = y.canonical := by
  simp only [State.push, hm, State.key, Key.mk.injEq, List.map_cons, List.cons.injEq] at h
  exact congrArg Frame.inst h.1.1

/-- Different callees lead to states with different keys. -/
theorem nodup_keys_calls (hm : m.frames = frame :: callers) {c : Call}
    (h : ((g.callees frame.inst c.site).map Json.canonical).Nodup) :
    ((m.calls g options c).map State.key).Nodup := by
  unfold State.calls
  dsimp only
  split
  · have hsub : ((m.jumps options c.target.toList).map State.key).Sublist
        ((c.target.toList.map m.enter).map State.key) := by
      rw [State.jumps, State.allowed, hm]
      exact (List.filter_sublist.map m.enter).map State.key
    refine List.Nodup.sublist hsub ?_
    cases c.target with
    | none => exact List.nodup_nil
    | some t => exact List.nodup_singleton _
  · rw [List.map_map, State.inlined, hm]
    have hinlined := h.sublist ((List.filter_sublist (p := m.canInline g options)).map Json.canonical)
    rw [List.Nodup, List.pairwise_map] at hinlined ⊢
    exact hinlined.imp fun hne hkey => hne (key_push_inj hm hkey)

theorem mem_inlined (hm : m.frames = frame :: callers) {site callee : Name} :
    callee ∈ m.inlined g options site ↔
      callee ∈ g.callees frame.inst site ∧ m.canInline g options callee = true := by
  simp only [State.inlined, hm, List.mem_filter]

/-- Where some callee is followed, the states after the call are those in which a callee is entered. -/
theorem calls_of_followed (hm : m.frames = frame :: callers) {c : Call} {callee : Name}
    (hcallee : callee ∈ g.callees frame.inst c.site) (hin : m.canInline g options callee = true) :
    m.calls g options c =
      (m.inlined g options c.site).map fun x => m.push x c.target c.destination := by
  have hne : m.inlined g options c.site ≠ [] := List.ne_nil_of_mem ((mem_inlined hm).mpr ⟨hcallee, hin⟩)
  simp [State.calls, hne]

/-- Where no callee is followed, the walk goes on behind the call. -/
theorem calls_of_none_followed (hm : m.frames = frame :: callers) {c : Call}
    (hnone : ∀ callee ∈ g.callees frame.inst c.site, m.canInline g options callee = false) :
    m.calls g options c = m.jumps options c.target.toList := by
  have hnil : m.inlined g options c.site = [] := by
    refine List.eq_nil_iff_forall_not_mem.mpr fun callee hcallee => ?_
    obtain ⟨hmem, hin⟩ := (mem_inlined hm).mp hcallee
    rw [hnone callee hmem] at hin
    cases hin
  simp [State.calls, hnil]

/-- No callee is entered by going on behind the call. -/
theorem push_ne_of_mem_jumps (hm : m.frames = frame :: callers) {targets : List Target} {u : State}
    (hu : u ∈ m.jumps options targets) (callee : Name) (target : Option Target) (destination : Name) :
    m.push callee target destination ≠ u := by
  obtain ⟨block, _, rfl⟩ := List.mem_map.mp hu
  intro he
  have hlength := congrArg (fun s : State => s.frames.length) he
  simp [State.push, State.enter, hm] at hlength

/-! ### What every callee should contribute -/

def Admitted (seen : Seen) (left : List State) (c : State) : Prop :=
  c ∈ left ∨ seen.contains c.key = true

/-- Each callee has its part in the successors of a call: the state in which it is entered, if it is
followed, and else the state behind the call, if that may still be entered. -/
structure EachContributes (g : CallGraph) (options : Options) (m : State) (callees : List Name) (c : Call)
    (seen : Seen) (left : List State) : Prop where
  followed : ∀ callee ∈ callees, m.canInline g options callee = true →
    Admitted seen left (m.push callee c.target c.destination)
  passed : ∀ callee ∈ callees, m.canInline g options callee = false →
    ∀ u ∈ m.jumps options c.target.toList, Admitted seen left u

theorem Sifted.admitted {seen seen' : Seen} {children left : List State}
    (h : Sifted seen seen' children left) (hkeys : (children.map State.key).Nodup) {c : State}
    (hc : c ∈ children) : Admitted seen left c := by
  rcases h.fresh c hc with hseen | ⟨d, hd, hkey⟩
  · exact .inr hseen
  · rw [← List.inj_on_of_nodup_map hkeys (h.mem d hd) hc hkey]
    exact .inl hd

section Successors

variable {c : Call} {seen seen' : Seen} {left : List State} (hm : m.frames = frame :: callers)
  (h : Sifted seen seen' (m.calls g options c) left)
  (hkeys : ((m.calls g options c).map State.key).Nodup)
include hm h hkeys

theorem admitted_of_followed {callee : Name} (hcallee : callee ∈ g.callees frame.inst c.site)
    (hin : m.canInline g options callee = true) :
    Admitted seen left (m.push callee c.target c.destination) := by
  refine h.admitted hkeys ?_
  rw [calls_of_followed hm hcallee hin]
  exact List.mem_map_of_mem ((mem_inlined hm).mpr ⟨hcallee, hin⟩)

theorem admitted_of_none_followed
    (hnone : ∀ callee ∈ g.callees frame.inst c.site, m.canInline g options callee = false) {u : State}
    (hu : u ∈ m.jumps options c.target.toList) : Admitted seen left u := by
  refine h.admitted hkeys ?_
  rw [calls_of_none_followed hm hnone]
  exact hu

/-- Every callee contributes exactly if all are followed, or none, or nothing is left to contribute by those
that are not: the state behind the call may not be entered any more, or its key was known. -/
theorem eachContributes_iff :
    EachContributes g options m (g.callees frame.inst c.site) c seen left ↔
      (∀ callee ∈ g.callees frame.inst c.site, m.canInline g options callee = true) ∨
      (∀ callee ∈ g.callees frame.inst c.site, m.canInline g options callee = false) ∨
      ∀ u ∈ m.jumps options c.target.toList, seen.contains u.key = true := by
  constructor
  · intro heach
    by_cases hall : ∀ callee ∈ g.callees frame.inst c.site, m.canInline g options callee = true
    · exact .inl hall
    by_cases hnone : ∀ callee ∈ g.callees frame.inst c.site, m.canInline g options callee = false
    · exact .inr (.inl hnone)
    -- A callee that is followed keeps the state behind the call from being produced.
    refine .inr (.inr fun u hu => ?_)
    push Not at hall hnone
    obtain ⟨x, hx, hxout⟩ := hall
    obtain ⟨y, hy, hyin⟩ := hnone
    rcases heach.passed x hx (Bool.eq_false_iff.mpr hxout) u hu with hleft | hseen
    · have hmem := h.mem u hleft
      rw [calls_of_followed hm hy (Bool.not_eq_false _ ▸ hyin)] at hmem
      obtain ⟨z, _, hz⟩ := List.mem_map.mp hmem
      exact absurd hz (push_ne_of_mem_jumps hm hu z c.target c.destination)
    · exact hseen
  · intro hcases
    refine ⟨fun callee => admitted_of_followed hm h hkeys, fun callee hcallee hout u hu => ?_⟩
    rcases hcases with hall | hnone | hseen
    · rw [hall callee hcallee] at hout
      cases hout
    · exact admitted_of_none_followed hm h hkeys hnone hu
    · exact .inr (hseen u hu)

end Successors

/-- Where names can be looked up, the keys of the states that follow are compared with the known ones. -/
theorem exists_sift (hg : g.Sound) (hk : g.isKeyed = true) {root : Name} (hbody : HasBody g root)
    {s t : State} {children : List State} (hs : Reaches g options root s)
    (hstep : s.step g options = .ok (.onward t children)) (seen : Seen) :
    ∃ seen' sifted, sift seen children = .ok (seen', sifted) := by
  cases h : sift seen children with
  | ok r => exact ⟨r.1, r.2, rfl⟩
  | error e =>
    obtain ⟨_, c, hc, hunkeyed⟩ := sift_eq_error h
    exact absurd (.state (hs.tail (.onward hstep hc)) hunkeyed) (not_obstructed hg hk hbody _)

/-- On the walks of a consistent program a call goes on with every callee that is followed, and behind the
call if none is. Each callee contributes, whether it is followed or not, unless some callees are followed
and others are not while the state behind the call could be entered and was not known: that state is then
missing from the successors. -/
theorem call_contributions {p : Program} (hp : p.check = .ok ())
    (hk : p.instances.all Instance.isKeyed = true)
    (hnames : (p.instances.map fun i => i.id.canonical).Nodup) {options : Options} {root : Name}
    (hbody : HasBody p.graph root) {s : State} (hs : Reaches p.graph options root s) {b : Block}
    (hb : AtBlock p.graph s b) {c : Call} (hc : b.terminator = .call c) {frame : Frame}
    {callers : List Frame} (hf : s.frames = frame :: callers) (seen : Seen) :
    ∃ m seen' sifted, m = (s.run b.statements).markCall p.graph c.site ∧
      s.step p.graph options = .ok (.onward m (m.calls p.graph options c)) ∧
      sift seen (m.calls p.graph options c) = .ok (seen', sifted) ∧
      (∀ callee ∈ p.graph.callees frame.inst c.site, m.canInline p.graph options callee = true →
        Admitted seen (sifted.filterMap id) (m.push callee c.target c.destination)) ∧
      ((∀ callee ∈ p.graph.callees frame.inst c.site, m.canInline p.graph options callee = false) →
        ∀ u ∈ m.jumps options c.target.toList, Admitted seen (sifted.filterMap id) u) ∧
      (EachContributes p.graph options m (p.graph.callees frame.inst c.site) c seen
          (sifted.filterMap id) ↔
        (∀ callee ∈ p.graph.callees frame.inst c.site, m.canInline p.graph options callee = true) ∨
        (∀ callee ∈ p.graph.callees frame.inst c.site, m.canInline p.graph options callee = false) ∨
        ∀ u ∈ m.jumps options c.target.toList, seen.contains u.key = true) := by
  have hg := p.sound_graph hp
  have hkeyed := Program.isKeyed_graph hk
  let m := (s.run b.statements).markCall p.graph c.site
  have hm : m.frames = frame :: callers := by
    rw [(sameStack_markCall _ _ _).frames, (sameStack_run _ _).frames, hf]
  have hstep : s.step p.graph options = .ok (.onward m (m.calls p.graph options c)) := by
    cases h : s.step p.graph options with
    | error e => exact absurd (.step hs h) (not_obstructed hg hkeyed hbody e)
    | ok n =>
      rw [hb.step, hc] at h
      obtain ⟨_, _, ht, _⟩ | ⟨_, ht, _⟩ | ⟨_, ht, rfl⟩ := finish_cases h <;> cases ht
      rfl
  obtain ⟨seen', sifted, hsift⟩ := exists_sift hg hkeyed hbody hs hstep seen
  have hkeys : ((m.calls p.graph options c).map State.key).Nodup :=
    nodup_keys_calls hm (CallGraph.nodup_callees hnames frame.inst c.site)
  have hsifted := sift_sifted hsift
  exact ⟨m, seen', sifted, rfl, hstep, hsift, fun callee => admitted_of_followed hm hsifted hkeys,
    fun hnone u => admitted_of_none_followed hm hsifted hkeys hnone, eachContributes_iff hm hsifted hkeys⟩

/-! ### A call that leaves one of its callees out -/

def indirectCall : Call :=
  { site := .str "bb0", callee := .null, signature := .str "fn()", method := .null,
    target := some (.int 1), destination := .null, location := .unknown }

/-- `main` acquires a lock, makes the call and acquires another lock. Of the callees one has no body and the
other, once entered, never returns. -/
def alternatives : Program :=
  let acquire (guard name : String) : Statement :=
    .acquire (.str guard) { site := .static, name := .str name } .mutex .unknown (.bool true)
  { unit := .str "unit", roots := [.str "main"], codegen := true, buildScript := false
    instances := [
      { id := .str "external", defPath := .str "external", typeArgs := [], signature := .str "fn()",
        method := .null, body := none },
      { id := .str "main", defPath := .str "main", typeArgs := [], signature := .str "", method := .null
        body := some { blocks := [
          { statements := [acquire "a" "A"], terminator := .call indirectCall },
          { statements := [acquire "b" "B"], terminator := .ret .null .unknown }] } },
      { id := .str "spin", defPath := .str "spin", typeArgs := [], signature := .str "fn()", method := .null
        body := some { blocks := [{ statements := [], terminator := .goto [.int 0] }] } }] }

theorem alternatives_graph : alternatives.graph =
    { instances := alternatives.instances
      edges := [
        { caller := .str "main", callee := .str "external", site := .str "bb0", indirect := true,
          location := .unknown },
        { caller := .str "main", callee := .str "spin", site := .str "bb0", indirect := true,
          location := .unknown }]
      unresolved := []
      callTable := [((.str "main", .str "bb0"), [.str "external", .str "spin"])] } := by
  have hsorted : orderOn Instance.id alternatives.instances = alternatives.instances := by
    rw [orderOn_of_plain (by decide)]
    refine sortOn_eq_self ?_
    unfold NotAfter
    decide +kernel
  simp only [Program.graph, CallGraph.build, hsorted]
  decide +kernel

def atIndirectCall : State :=
  (State.start (.str "main")).apply
    (.acquire (.str "a") { site := .static, name := .str "A" } .mutex .unknown (.bool true))

theorem alternatives_atBlock : AtBlock alternatives.graph (.start (.str "main"))
    { statements := [.acquire (.str "a") { site := .static, name := .str "A" } .mutex .unknown (.bool true)]
      terminator := .call indirectCall } := by
  refine ⟨_, _, _, rfl, rfl, ?_⟩
  rw [alternatives_graph]
  decide +kernel

theorem alternatives_markCall :
    atIndirectCall.markCall alternatives.graph indirectCall.site = atIndirectCall := by
  rw [alternatives_graph]
  decide +kernel

theorem alternatives_calls :
    atIndirectCall.calls alternatives.graph {} indirectCall =
      [atIndirectCall.push (.str "spin") (some (.int 1)) .null] := by
  rw [alternatives_graph]
  decide +kernel

/-- One callee is entered although the other has no body. -/
theorem call_contributions_alternatives :
    alternatives.check = .ok () ∧
    ∃ seen' sifted,
      sift .empty (atIndirectCall.calls alternatives.graph {} indirectCall) = .ok (seen', sifted) ∧
      atIndirectCall.push (.str "spin") (some (.int 1)) .null ∈ sifted.filterMap id := by
  have hcheck : alternatives.check = .ok () := by decide +kernel
  have hbody : HasBody alternatives.graph (.str "main") := by
    rw [alternatives_graph]
    exact ⟨_, _, rfl, rfl⟩
  have hcallee : (.str "spin" : Name) ∈ alternatives.graph.callees (.str "main") (.str "bb0") := by
    rw [alternatives_graph]
    decide +kernel
  have hin : atIndirectCall.canInline alternatives.graph {} (.str "spin") = true := by
    rw [alternatives_graph]
    decide +kernel
  have hstart : Reaches alternatives.graph {} (.str "main") (.start (.str "main")) := .refl
  obtain ⟨m, seen', sifted, hm, _, hsift, hfollowed, _⟩ :=
    call_contributions hcheck (by decide) (by decide +kernel) hbody hstart alternatives_atBlock rfl rfl .empty
  obtain rfl : m = atIndirectCall := hm.trans alternatives_markCall
  rcases hfollowed (.str "spin") hcallee hin with hleft | hseen
  · exact ⟨hcheck, seen', sifted, hsift, hleft⟩
  · simp at hseen

/-- The callee without a body contributes nothing to the call, so that the lock behind it is acquired on no
path. -/
theorem unfollowed_callee_left_out :
    alternatives.check = .ok () ∧
    alternatives.graph.callees (.str "main") indirectCall.site = [.str "external", .str "spin"] ∧
    (∃ seen' sifted,
      (State.start (.str "main")).step alternatives.graph {} =
        .ok (.onward atIndirectCall (atIndirectCall.calls alternatives.graph {} indirectCall)) ∧
      sift .empty (atIndirectCall.calls alternatives.graph {} indirectCall) = .ok (seen', sifted) ∧
      ¬EachContributes alternatives.graph {} atIndirectCall [.str "external", .str "spin"] indirectCall
        .empty (sifted.filterMap id)) ∧
    (explore alternatives.graph {} 9 (.str "main")).map
      (fun e => e.paths.map fun p => p.events.map Event.op) = .ok [[.acquire]] := by
  have hstep : (State.start (.str "main")).step alternatives.graph {} =
      .ok (.onward atIndirectCall (atIndirectCall.calls alternatives.graph {} indirectCall)) := by
    have hrun : (State.start (.str "main")).run
        [.acquire (.str "a") { site := .static, name := .str "A" } .mutex .unknown (.bool true)] =
          atIndirectCall := rfl
    rw [alternatives_atBlock.step, hrun, State.finish, State.call, alternatives_markCall]
    rfl
  have hsift : (sift .empty (atIndirectCall.calls alternatives.graph {} indirectCall)).map
      (fun r => (r.2.filterMap id).map fun s => s.frames.length) = .ok [2] := by
    rw [alternatives_calls]
    decide +kernel
  obtain ⟨⟨seen', sifted⟩, hsift, hlengths⟩ := except_map_eq_ok hsift
  have hbehind : atIndirectCall.enter (.int 1) ∈ atIndirectCall.jumps {} indirectCall.target.toList := by
    decide +kernel
  refine ⟨by decide +kernel, ?_, ⟨seen', sifted, hstep, hsift, fun heach => ?_⟩, ?_⟩
  · rw [alternatives_graph]
    decide +kernel
  · have hout : atIndirectCall.canInline alternatives.graph {} (.str "external") = false := by
      rw [alternatives_graph]
      decide +kernel
    rcases heach.passed (.str "external") List.mem_cons_self hout _ hbehind with hleft | hseen
    · have hlength := List.mem_map_of_mem (f := fun s : State => s.frames.length) hleft
      rw [hlengths] at hlength
      cases List.mem_singleton.mp hlength
    · simp at hseen
  · rw [alternatives_graph]
    decide +kernel

end Walk

end LockAudit
