import LockAudit.Proofs.CallGraph.Resolution
import LockAudit.Proofs.Order.Related
import LockAudit.Proofs.Order.Sorted
import LockAudit.Proofs.Walk.Congruence

/-! # Programs that differ in the order of branches

A jump lists its targets in some order. Programs that differ in nothing but these orders have the same
calls, so their call graphs differ in nothing else either.
-/

namespace LockAudit

inductive Terminator.Rebranched : Terminator → Terminator → Prop
  | goto {targets targets' : List Target} (h : targets'.Perm targets) :
    Rebranched (.goto targets) (.goto targets')
  | call (c : Call) : Rebranched (.call c) (.call c)
  | ret (value : Name) (location : Location) : Rebranched (.ret value location) (.ret value location)

structure Block.Rebranched (b b' : Block) : Prop where
  statements : b'.statements = b.statements
  terminator : b.terminator.Rebranched b'.terminator

def Body.Rebranched (body body' : Body) : Prop :=
  List.Forall₂ Block.Rebranched body.blocks body'.blocks

structure Instance.Rebranched (i i' : Instance) : Prop where
  rest : i' = { i with body := i'.body }
  body : Option.Rel Body.Rebranched i.body i'.body

structure Program.Rebranched (p q : Program) : Prop where
  rest : q = { p with instances := q.instances }
  instances : List.Forall₂ Instance.Rebranched p.instances q.instances

/-! ### Bodies -/

variable {b b' : Body}

theorem Body.Rebranched.calls_eq (h : b.Rebranched b') : b'.calls = b.calls := by
  obtain ⟨blocks⟩ := b
  obtain ⟨blocks'⟩ := b'
  unfold Body.calls
  change List.Forall₂ Block.Rebranched blocks blocks' at h
  induction h with
  | nil => rfl
  | @cons block block' _ _ hab _ ih =>
    simp only [List.filterMap_cons] at ih ⊢
    obtain ⟨_, hterminator⟩ := hab
    cases block
    cases block'
    cases hterminator <;> simp only [ih]

theorem Body.Rebranched.block? (h : b.Rebranched b') (index : Int) :
    Option.Rel Block.Rebranched (b.block? index) (b'.block? index) := by
  unfold Body.block?
  rw [← h.length_eq]
  dsimp only
  generalize (if index < 0 then index + Int.ofNat b.blocks.length else index) = i
  split
  · exact .none
  · exact rel_getElem? h _

/-! ### Instances -/

namespace Instance.Rebranched

variable {i i' : Instance} (h : i.Rebranched i')

include h

theorem id_eq : i'.id = i.id := by
  rw [h.rest]

theorem strip_eq : { i' with body := none } = { i with body := none } := by
  rw [h.rest]

end Instance.Rebranched

/-! ### Call graphs -/

namespace CallGraph

structure Rebranched (g g' : CallGraph) : Prop where
  instances : List.Forall₂ Instance.Rebranched g.instances g'.instances
  edges : g'.edges = g.edges
  unresolved : g'.unresolved = g.unresolved
  callTable : g'.callTable = g.callTable

/-- No call depends on the order of branches for the instances that it may enter. -/
theorem resolve_eq_of_rebranched {nodes nodes' : List Instance}
    (h : List.Forall₂ Instance.Rebranched nodes nodes') (c : Call) : resolve nodes' c = resolve nodes c := by
  -- which instances a call may enter does not depend on their bodies
  let strip (i : Instance) : Instance := { i with body := none }
  have hstrip : nodes'.map strip = nodes.map strip := by
    induction h with
    | nil => rfl
    | cons hab _ ih => rw [List.map_cons, List.map_cons, ih, show strip _ = strip _ from hab.strip_eq]
  have hid : Instance.id = Instance.id ∘ strip := rfl
  have haccepts : ∀ i j : Instance, strip i = strip j → accepts c i = accepts c j := by
    intro i j hij
    have h' : accepts c (strip i) = accepts c (strip j) := by rw [hij]
    exact h'
  have hany : ∀ is : List Instance, (is.any fun i => i.id.same c.callee) =
      (is.map strip).any fun i => i.id.same c.callee := by
    intro is
    rw [List.any_map]
    rfl
  unfold resolve
  rw [hany nodes', hany nodes, hstrip, hid, ← List.map_map, ← List.map_map,
    map_filter_congr haccepts hstrip]

theorem resolutions_eq_of_rebranched {nodes nodes' : List Instance}
    (h : List.Forall₂ Instance.Rebranched nodes nodes') : resolutions nodes' = resolutions nodes := by
  unfold resolutions
  refine flatMap_eq_of_forall₂ ?_ h
  intro i i' hi
  rw [hi.id_eq]
  obtain ⟨hb, hb'⟩ | ⟨body, body', hb, hb', hbodies⟩ := option_rel_cases hi.body
  · rw [hb, hb']
  · rw [hb, hb']
    simp only [hbodies.calls_eq, resolve_eq_of_rebranched h]

theorem build_rebranched {xs ys : List Instance} (h : List.Forall₂ Instance.Rebranched xs ys)
    (htexts : ∀ i ∈ xs, i.id.isText = true) : (build xs).Rebranched (build ys) := by
  have htexts' : ∀ i ∈ ys, i.id.isText = true := by
    intro i' hi'
    obtain ⟨i, hi, hii⟩ : ∃ i ∈ xs, i.Rebranched i' := forall₂_exists_left h hi'
    rw [hii.id_eq]
    exact htexts i hi
  have hnodes : List.Forall₂ Instance.Rebranched (build xs).instances (build ys).instances := by
    change List.Forall₂ Instance.Rebranched (orderOn Instance.id xs) (orderOn Instance.id ys)
    rw [orderOn_of_plain htexts, orderOn_of_plain htexts']
    exact forall₂_sortOn (fun _ _ hi => hi.id_eq) h
  have hcalls := resolutions_eq_of_rebranched hnodes
  refine ⟨hnodes, ?_, ?_, ?_⟩
  · exact congrArg (fun calls => (calls.flatMap Resolution.edges).foldl addEdge []) hcalls
  · exact congrArg (fun calls =>
      ((calls.filter Resolution.isUnresolved).map Resolution.place).eraseDupsBy samePlace) hcalls
  · exact congrArg (fun calls => calls.foldl enterCall []) hcalls

namespace Rebranched

variable {g g' : CallGraph} (h : g.Rebranched g')

include h

theorem instance? (id : Name) : Option.Rel Instance.Rebranched (g.instance? id) (g'.instance? id) := by
  refine rel_find? ?_ h.instances
  intro i i' hi
  rw [hi.id_eq]

theorem callees_eq (caller site : Name) : g'.callees caller site = g.callees caller site := by
  unfold callees
  rw [h.callTable]

theorem isUnresolved_eq (caller site : Name) : g'.isUnresolved caller site = g.isUnresolved caller site := by
  unfold isUnresolved
  rw [h.unresolved]

end Rebranched

end CallGraph

end LockAudit
