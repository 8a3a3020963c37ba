import LockAudit.Proofs.CallGraph.Recursion
import LockAudit.Proofs.Findings
import LockAudit.Proofs.Walk.Activations
import LockAudit.Proofs.Walk.Agreement
import LockAudit.Proofs.Walk.Lookups

/-! # Dead instances are irrelevant

No walk from the roots enters an instance to which no calls lead. What an analysis finds is therefore told
by the live instances alone: a dead one may be removed, added or replaced, and the paths and reports stay
as they are.
-/

namespace LockAudit

open Walk

/-! ### Walks stay among live instances -/

namespace Walk

variable {xs ys : List Instance} {options : Options} {roots : List Name} {root : Name}

theorem Reaches.reached {s : State} (h : Reaches (.build xs) options root s) (hroot : root ∈ roots)
    (hcontains : (CallGraph.build xs).contains root = true) :
    ∀ f ∈ s.frames, (CallGraph.build xs).Reached roots f.inst := by
  intro f hf
  obtain ⟨_, hstack⟩ := h.reachable.registered
  have hne : s.activations ≠ [] := List.ne_nil_of_mem (List.mem_map_of_mem hf)
  obtain ⟨hfirst, hcalls⟩ := hstack.called.begins hne
  obtain ⟨rest, hrest⟩ := List.head?_eq_some_iff.mp hfirst
  have hin : f.inst ∈ root :: rest := by
    rw [← hrest, ← chain_eq, State.chain, List.mem_reverse]
    exact List.mem_map_of_mem hf
  rw [hrest] at hcalls
  exact ⟨root, hroot, hcontains, f.inst, reflTransGen_of_isChain hcalls _ hin, Name.same_self _⟩

variable (hlive : ∀ i, CallGraph.Live xs roots i ↔ CallGraph.Live ys roots i)
  (hx : DistinctlyNamed xs) (hy : DistinctlyNamed ys)

include hlive hx hy

theorem Reaches.concur {s : State} (h : Reaches (.build xs) options root s) (hroot : root ∈ roots)
    (hcontains : (CallGraph.build xs).contains root = true) :
    Concur (.build xs) (.build ys) s := by
  have hreached := h.reached hroot hcontains
  refine ⟨?_, ?_, ?_, ?_⟩
  · intro f hf
    exact CallGraph.instance?_eq hlive hx hy (hreached f hf)
  · intro f hf site
    exact (CallGraph.answers_eq hlive hx hy (hreached f hf) site).1
  · intro f hf site
    exact (CallGraph.answers_eq hlive hx hy (hreached f hf) site).2
  · intro f hf site callee hcallee
    have hcalled := (hreached f hf).calls (CallGraph.calls_of_mem_callees hcallee)
    exact CallGraph.instance?_eq hlive hx hy hcalled

theorem contains_eq_of_live (hroot : root ∈ roots) :
    (CallGraph.build xs).contains root = (CallGraph.build ys).contains root := by
  have hself : ∀ is : List Instance, (CallGraph.build is).contains root = true →
      (CallGraph.build is).Reached roots root := fun is hc =>
    ⟨root, hroot, hc, root, .refl, Name.same_self _⟩
  rw [Bool.eq_iff_iff]
  constructor
  · intro hc
    rw [CallGraph.contains, ← CallGraph.instance?_eq hlive hx hy (hself xs hc)]
    exact hc
  · intro hc
    rw [CallGraph.contains, ← CallGraph.instance?_eq (fun i => (hlive i).symm) hy hx (hself ys hc)]
    exact hc

/-- Lists with the same live instances have the same collection of paths. -/
theorem collect_eq_of_live (fuel : Nat) (clock : Clock) :
    collect (.build xs) options fuel clock roots = collect (.build ys) options fuel clock roots := by
  refine collect_eq_of_explore_eq clock (fun root hroot => contains_eq_of_live hlive hx hy hroot) ?_
  intro root hroot
  cases hc : (CallGraph.build xs).contains root with
  | true => exact explore_eq_of_concur (fun s hs => hs.concur hlive hx hy hroot hc) fuel
  | false =>
    have hc' := contains_eq_of_live hlive hx hy hroot
    rw [hc] at hc'
    rw [CallGraph.contains, Option.isSome_eq_false_iff, Option.isNone_iff_eq_none] at hc
    rw [eq_comm, CallGraph.contains, Option.isSome_eq_false_iff, Option.isNone_iff_eq_none] at hc'
    rw [explore, explore, hc, hc']

end Walk

/-! ### Programs that can be analyzed -/

/-- A consistent program whose instances have distinct texts for names and names that can be looked up. -/
structure Program.Proper (p : Program) : Prop where
  consistent : p.check = .ok ()
  named : DistinctlyNamed p.instances
  keyed : ∀ i ∈ p.instances, CallGraph.instanceIsKeyed i = true

instance (p : Program) : Decidable p.Proper :=
  decidable_of_iff (p.check = .ok () ∧ DistinctlyNamed p.instances ∧
      ∀ i ∈ p.instances, CallGraph.instanceIsKeyed i = true)
    ⟨fun h => ⟨h.1, h.2.1, h.2.2⟩, fun h => ⟨h.consistent, h.named, h.keyed⟩⟩

/-- Recursion among instances that are named by texts can be told. -/
theorem exists_recursionLog {g : CallGraph} (h : g.Formed) : ∃ log, recursionLog g = .ok log := by
  obtain ⟨texts, htexts⟩ := exists_mapM_some fun c hc =>
    Name.exists_texts? fun id hid => h.isText_of_mem_component hc hid
  exact ⟨_, by rw [recursionLog, htexts]⟩

/-- What an analysis tells of a unit: why it is skipped, or what is reported. -/
def outcome (analysis : Except AnalysisError Analysis) :
    Except AnalysisError (Option String × List Report) :=
  analysis.map fun a => (a.verdict.skipText?, a.verdict.reports)

/-- Unless it is skipped, a unit has the reports of the paths collected from its roots. -/
theorem Program.Proper.outcome_eq {p : Program} (h : p.Proper) (options : Options) (fuel : Nat)
    (clock : Clock) :
    outcome (analyze options fuel clock p) =
      match skipReason? options p with
      | some reason => .ok (some reason.text, [])
      | none => (collect p.graph options fuel clock p.roots).mapError .collect >>= fun c =>
          ((Detection.detect options c.paths).mapError .detect).map fun d => (none, d.reports) := by
  unfold analyze
  cases skipReason? options p with
  | some reason => rfl
  | none =>
    have hgraph := CallGraph.ofInstances_of_texts h.named.texts h.keyed
    obtain ⟨recursion, hrecursion⟩ := exists_recursionLog (CallGraph.formed_build h.named)
    simp only [analyzeUnit]
    rw [h.consistent, hgraph]
    simp only [Except.mapError, bind, Except.bind, hrecursion, Program.graph]
    cases collect (.build p.instances) options fuel clock p.roots with
    | error e => rfl
    | ok c =>
      dsimp only
      cases Detection.detect options c.paths <;> rfl

def Program.live (p : Program) : List Instance :=
  p.instances.filter fun i => CallGraph.among i.id (p.graph.reachableFrom p.roots)

theorem Program.mem_live {p : Program} {i : Instance} :
    i ∈ p.live ↔ CallGraph.Live p.instances p.roots i := by
  rw [live, List.mem_filter, graph, CallGraph.among_build_iff]
  rfl

/-- Proper programs that differ in dead instances only have the same paths and the same outcome. -/
theorem Program.Proper.outcome_eq_of_live {p : Program} (hp : p.Proper) {instances : List Instance}
    (hq : { p with instances }.Proper)
    (hlive : ∀ i, i ∈ { p with instances }.live ↔ i ∈ p.live) (options : Options) (fuel : Nat)
    (clock : Clock) :
    collect { p with instances }.graph options fuel clock p.roots =
        collect p.graph options fuel clock p.roots ∧
      outcome (analyze options fuel clock { p with instances }) =
        outcome (analyze options fuel clock p) := by
  have hcollect : collect { p with instances }.graph options fuel clock p.roots =
      collect p.graph options fuel clock p.roots := by
    refine collect_eq_of_live ?_ hq.named hp.named fuel clock
    exact fun i => mem_live.symm.trans ((hlive i).trans mem_live)
  refine ⟨hcollect, ?_⟩
  rw [hp.outcome_eq, hq.outcome_eq, hcollect]
  rfl

def Program.without (p : Program) (x : Name) : Program :=
  { p with instances := p.instances.filter fun i => !i.id.same x }

section Removal

variable {p : Program} {x : Name}
  (hx : CallGraph.among x (p.graph.reachableFrom p.roots) = false)

include hx

theorem Program.mem_without_of_live {i : Instance} (hi : CallGraph.Live p.instances p.roots i) :
    i ∈ (p.without x).instances := by
  refine List.mem_filter.mpr ⟨hi.1, ?_⟩
  cases hsame : i.id.same x with
  | false => rfl
  | true =>
    rw [Program.graph, CallGraph.among_build_iff.mpr (hi.2.congr hsame)] at hx
    cases hx

theorem Program.mem_live_without {i : Instance} : i ∈ (p.without x).live ↔ i ∈ p.live := by
  rw [mem_live, mem_live]
  refine (CallGraph.live_iff_of_subset ?_ (fun i => mem_without_of_live hx) i).symm
  exact fun i hi => (List.mem_filter.mp hi).1

theorem Program.Proper.without (hp : p.Proper) : (p.without x).Proper := by
  have hsub : ∀ i ∈ (p.without x).instances, i ∈ p.instances := fun i hi => (List.mem_filter.mp hi).1
  obtain ⟨hkeys, hroots, hchecks⟩ := Program.check_eq_ok_iff.mp hp.consistent
  refine ⟨Program.check_eq_ok_iff.mpr ⟨hkeys, ?_, fun i hi => hchecks i (hsub i hi)⟩, ⟨?_, ?_⟩, ?_⟩
  · -- a root is live, so the instance that it names is kept
    intro root hroot
    obtain ⟨i, hi, hsame⟩ := hroots root hroot
    have hcontains := p.contains_root hp.consistent hroot
    have hreached : (CallGraph.build p.instances).Reached p.roots root :=
      ⟨root, hroot, hcontains, root, .refl, Name.same_self _⟩
    exact ⟨i, Program.mem_without_of_live hx ⟨hi, hreached.congr hsame⟩, hsame⟩
  · exact fun i hi => hp.named.texts i (hsub i hi)
  · exact hp.named.nodup.sublist (List.filter_sublist.map Instance.id)
  · exact fun i hi => hp.keyed i (hsub i hi)

end Removal

/-- Whatever a proper program has besides its live instances, the paths collected from its roots and the
outcome of its analysis are the same. In particular an instance that is not reached from the roots can be
removed. -/
theorem dead_instances_irrelevant {p : Program} (hp : p.Proper) (options : Options) (fuel : Nat)
    (clock : Clock) :
    (∀ instances, { p with instances }.Proper →
      (∀ i, i ∈ { p with instances }.live ↔ i ∈ p.live) →
      collect { p with instances }.graph options fuel clock p.roots =
          collect p.graph options fuel clock p.roots ∧
        outcome (analyze options fuel clock { p with instances }) =
          outcome (analyze options fuel clock p)) ∧
    ∀ x, CallGraph.among x (p.graph.reachableFrom p.roots) = false →
      (p.without x).Proper ∧
      collect (p.without x).graph options fuel clock p.roots =
          collect p.graph options fuel clock p.roots ∧
        outcome (analyze options fuel clock (p.without x)) =
          outcome (analyze options fuel clock p) := by
  refine ⟨fun instances hq hlive => hp.outcome_eq_of_live hq hlive options fuel clock, ?_⟩
  intro x hx
  have hq := hp.without hx
  exact ⟨hq, hp.outcome_eq_of_live hq (fun i => Program.mem_live_without hx) options fuel clock⟩

/-- The program that acquires a lock twice, with an instance that nothing calls and that does the same. -/
def relockingAndIdle : Program :=
  { relocking with
    instances := relocking.instances ++ relocking.instances.map fun i => { i with id := .str "idle" } }

theorem idle_not_reached :
    CallGraph.among (.str "idle") (relockingAndIdle.graph.reachableFrom relockingAndIdle.roots) = false := by
  have hcalls : ∀ i ∈ relockingAndIdle.instances, ∀ body, i.body = some body → body.calls = [] := by
    decide +kernel
  rw [Bool.eq_false_iff, ne_eq, Program.graph, CallGraph.among_build_iff]
  rintro ⟨root, hroot, _, node, hreach, hsame⟩
  obtain rfl := List.mem_singleton.mp hroot
  cases hreach with
  | refl => simp at hsame
  | tail _ hab =>
    obtain ⟨i, hi, _, _, _, _, body, hbody, c, hc, _⟩ := CallGraph.calls_iff_mayEnter.mp hab
    rw [hcalls i hi body hbody] at hc
    cases hc

/-- The double lock in the instance that nothing calls is not reported. -/
theorem dead_instances_irrelevant_idle :
    ∃ reports, outcome (analyze {} 9 {} relockingAndIdle) = .ok (none, reports) ∧
      reports.map Report.kind = ["DoubleLock"] := by
  have hproper : relockingAndIdle.Proper := by decide +kernel
  obtain ⟨_, _, houtcome⟩ := (dead_instances_irrelevant hproper {} 9 {}).2 _ idle_not_reached
  have hrest : relockingAndIdle.without (.str "idle") = relocking := by decide +kernel
  have hfound : (outcome (analyze {} 9 {} relocking)).toOption.map
      (fun o => (o.1, o.2.map Report.kind)) = some (none, ["DoubleLock"]) := by
    decide +kernel
  rw [← houtcome, hrest]
  cases ho : outcome (analyze {} 9 {} relocking) with
  | error e =>
    rw [ho] at hfound
    cases hfound
  | ok o =>
    rw [ho] at hfound
    obtain ⟨hskip, hkinds⟩ := Prod.mk.inj (Option.some.inj hfound)
    exact ⟨o.2, congrArg Except.ok (Prod.ext hskip rfl), hkinds⟩

end LockAudit
