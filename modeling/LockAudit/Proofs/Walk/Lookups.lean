import LockAudit.Proofs.CallGraph.Resolution
import LockAudit.Proofs.Walk.Returning

/-! # Lookups on walks

The check of a program covers every block, instance and event that a walk of it looks up. Where instances
are named by texts and jumps are whole numbers, a walk from a root therefore meets no fault of its own. What
keeps paths from being collected is a value in a statement or call that cannot be part of a key, a time
budget that is too large to be added to a time, or a walk that goes on without an end.
-/

namespace LockAudit

/-! ### Programs with plain names -/

def Body.WholeJumps (body : Body) : Prop :=
  ∀ b ∈ body.blocks, ∀ t ∈ b.terminator.successors, (Target.index? t).isSome = true

instance (body : Body) : Decidable body.WholeJumps :=
  inferInstanceAs (Decidable (∀ b ∈ body.blocks, ∀ t ∈ b.terminator.successors, _ = true))

structure Program.Plain (p : Program) : Prop where
  ids : ∀ i ∈ p.instances, i.id.isText = true
  jumps : ∀ i ∈ p.instances, ∀ body, i.body = some body → body.WholeJumps

instance (p : Program) : Decidable p.Plain :=
  decidable_of_iff ((∀ i ∈ p.instances, i.id.isText = true) ∧
      ∀ i ∈ p.instances, ∀ body ∈ i.body, body.WholeJumps)
    ⟨fun h => ⟨h.1, h.2⟩, fun h => ⟨h.ids, h.jumps⟩⟩

/-- Every root of a consistent program is named like an instance. -/
theorem Program.exists_instance_of_root {p : Program} (h : p.check = .ok ()) {root : Name}
    (hroot : root ∈ p.roots) : ∃ i ∈ p.instances, root.same i.id = true :=
  (check_eq_ok_iff.mp h).2.1 root hroot

theorem Program.contains_root {p : Program} (h : p.check = .ok ()) {root : Name}
    (hroot : root ∈ p.roots) : p.graph.contains root = true := by
  obtain ⟨i, hi, hsame⟩ := p.exists_instance_of_root h hroot
  refine CallGraph.contains_iff.mpr ⟨i, Program.mem_graph.mpr hi, ?_⟩
  exact Name.same_symm hsame

theorem Program.Plain.isText_root {p : Program} (hplain : p.Plain) (h : p.check = .ok ()) {root : Name}
    (hroot : root ∈ p.roots) : root.isText = true := by
  obtain ⟨i, hi, hsame⟩ := p.exists_instance_of_root h hroot
  exact Name.isText_of_same hsame (hplain.ids i hi)

namespace Walk

variable {g : CallGraph} {options : Options}

/-! ### Blocks have whole numbers -/

def BlocksNumbered (s : State) : Prop :=
  ∀ f ∈ s.frames, ∀ t, f.block = some t → (Target.index? t).isSome = true

theorem blocksNumbered_start (root : Name) : BlocksNumbered (.start root) := by
  intro f hf t ht
  obtain rfl := List.mem_singleton.mp hf
  cases ht
  rfl

theorem Follows.blocksNumbered
    (hg : ∀ i ∈ g.instances, ∀ body, i.body = some body → body.WholeJumps) {s t : State}
    (h : Follows g options s t) (hs : BlocksNumbered s) : BlocksNumbered t := by
  obtain ⟨frame, callers, block, b, hf, _, hat, hmoves⟩ := h.moves
  obtain ⟨i, body, index, hi, hb, _, hblock⟩ := blockAt_eq_ok hat
  have hwhole := hg i (CallGraph.mem_of_instance? hi) body hb b (Body.mem_of_block? hblock)
  unfold BlocksNumbered at hs ⊢
  rw [hf] at hs
  obtain ⟨_, hcallers⟩ := List.forall_mem_cons.mp hs
  generalize t.frames = frames, t.visits = visits at hmoves
  cases hmoves with
  | ended => exact hcallers
  | entered target hmem _ =>
    refine List.forall_mem_cons.mpr ⟨?_, hcallers⟩
    rintro _ ⟨⟩
    exact hwhole target hmem
  | called c hterm callee j _ _ _ =>
    refine List.forall_mem_cons.mpr ⟨?_, List.forall_mem_cons.mpr ⟨?_, hcallers⟩⟩
    · rintro _ ⟨⟩
      rfl
    · intro target htarget
      have htarget : c.target = some target := htarget
      refine hwhole target ?_
      simp [hterm, Terminator.successors, htarget]

theorem Reaches.blocksNumbered
    (hg : ∀ i ∈ g.instances, ∀ body, i.body = some body → body.WholeJumps) {root : Name} {s : State}
    (h : Reaches g options root s) : BlocksNumbered s := by
  induction h with
  | refl => exact blocksNumbered_start root
  | tail _ hf ih => exact hf.blocksNumbered hg ih

/-! ### What a walk looks up -/

/-- Everything that a walk may look up in a state is there: the instances on the stack with their bodies, the
blocks to run next, the callees of any call site, and the acquisitions of the guards. -/
structure Resolved (g : CallGraph) (s : State) : Prop where
  frames : ∀ f ∈ s.frames, ∃ i body, g.instance? f.inst = some i ∧ i.body = some body ∧
    ∀ t, f.block = some t → ∃ k < body.blocks.length, Target.index? t = some (Int.ofNat k)
  callees : ∀ f ∈ s.frames, ∀ site, ∀ callee ∈ g.callees f.inst site, g.contains callee = true
  events : ∀ h ∈ s.held, ∃ e, s.events[h.index]? = some e

theorem Located.resolved {instances : List Instance} {s : State}
    (hl : Located (.build instances) s) (hb : BlocksNumbered s) (ht : Tracked s) :
    Resolved (.build instances) s := by
  refine ⟨?_, ?_, ?_⟩
  · intro f hf
    obtain ⟨i, body, hi, hbody, hin⟩ := hl.placed f hf
    refine ⟨i, body, hi, hbody, ?_⟩
    intro t hblock
    obtain ⟨k, hk⟩ := Option.isSome_iff_exists.mp (hb f hf t hblock)
    obtain ⟨n, hn, rfl⟩ := Target.exists_lt_of_within? (hin t hblock) hk
    exact ⟨n, hn, hk⟩
  · intro f _ site callee hc
    exact CallGraph.contains_of_calls (CallGraph.calls_of_mem_callees hc)
  · intro h hh
    obtain ⟨e, he, _⟩ := ht.acquired hh
    exact ⟨e, he⟩

/-- Statements look up nothing new. -/
theorem Resolved.of_sameStack {s t : State} (h : Resolved g s) (hst : SameStack s t) (ht : Tracked t) :
    Resolved g t := by
  refine ⟨hst.frames ▸ h.frames, hst.frames ▸ h.callees, ?_⟩
  intro k hk
  obtain ⟨e, he, _⟩ := ht.acquired hk
  exact ⟨e, he⟩

/-! ### What may go wrong -/

/-- Where fuel runs out there is a walk that is long enough to use it up. -/
theorem explore_eq_error {fuel : Nat} {root : Name} {e : Fault} (hroot : g.contains root = true)
    (h : explore g options fuel root = .error e) :
    HasBody g root ∧
    ((e = .outOfFuel ∧ ∃ s walk, Reaches g options root s ∧ (s :: walk).IsChain (Follows g options) ∧
      fuel ≤ walk.length + options.maxPaths * startsPerPath + 1) ∨ Obstructed g options root e) := by
  unfold explore at h
  split at h
  · rename_i hi
    simp [CallGraph.contains, hi] at hroot
  · rename_i i hi
    split at h
    · cases h
    · rename_i hbody
      rw [Option.isNone_iff_eq_none] at hbody
      obtain ⟨body, hb⟩ := Option.ne_none_iff_exists'.mp hbody
      refine ⟨⟨i, body, hi, hb⟩, ?_⟩
      simpa [Progress.start] using exploreFrom_eq_error h fun _ => reaches_of_mem_start

/-- Of what may obstruct a walk only names that are no keys are left. -/
theorem Obstructed.unkeyed {root : Name} {e : Fault} (h : Obstructed g options root e) (hg : g.Sound)
    (hwhole : ∀ i ∈ g.instances, ∀ body, i.body = some body → body.WholeJumps)
    (hbody : HasBody g root) : e = .unkeyed ∧ g.isKeyed = false := by
  have hkeyed : g.isKeyed = false := by
    by_contra hkeyed
    exact not_obstructed hg (Bool.not_eq_false _ ▸ hkeyed) hbody e h
  refine ⟨?_, hkeyed⟩
  cases h with
  | step hs h =>
    -- no step fails where all blocks have whole numbers
    obtain ⟨n, hn⟩ := (hs.located hg hbody).exists_step hg (hs.blocksNumbered hwhole) options
    rw [hn] at h
    cases h
  | state | trace => rfl

inductive CollectFails (p : Program) (options : Options) (fuel : Nat) (clock : Clock) :
    CollectError → Prop
  | time {budget : Number} (hb : options.timeBudget = some budget)
    (ht : (clock.reading 0).add? budget = none) : CollectFails p options fuel clock .timeOverflow
  | unkeyed (hk : p.instances.all Instance.isKeyed = false) :
    CollectFails p options fuel clock (.walk .unkeyed)
  /-- Some walk goes on for as long as the fuel lasts. -/
  | endless {root : Name} {s : State} {walk : List State} (hroot : root ∈ p.roots)
    (hs : Reaches p.graph options root s) (hw : (s :: walk).IsChain (Follows p.graph options))
    (hf : fuel ≤ walk.length + options.maxPaths * startsPerPath + 1) :
    CollectFails p options fuel clock (.walk .outOfFuel)

/-- Roots that are texts can be looked up and have an order. -/
theorem not_stray_of_texts {roots : List Name} (h : ∀ r ∈ roots, r.isText = true) :
    (!roots.all Name.isKey || !haveOrder (roots.eraseDupsBy Name.same)) = false := by
  have hkeys : roots.all Name.isKey = true :=
    List.all_eq_true.mpr fun r hr => Name.isKey_of_isText (h r hr)
  rw [hkeys, haveOrder_of_texts fun r hr => h r (mem_of_mem_eraseDupsBy hr)]
  rfl

theorem checkRoots_eq_ok {roots : List Name} (ht : ∀ r ∈ roots, r.isText = true)
    (hc : ∀ r ∈ roots, g.contains r = true) : checkRoots g roots = .ok () := by
  have hmissing : ((sortedRoots roots).filter fun r => !g.contains r) = [] := by
    refine List.filter_eq_nil_iff.mpr fun r hr => ?_
    simp [hc r (mem_sortedRoots hr)]
  simp [checkRoots, not_stray_of_texts ht, hmissing]

/-- Nothing but a budget that is too large, a walk that outlasts the fuel or a name that is no key keeps paths
from being collected. -/
theorem collect_eq_error {p : Program} (hp : p.check = .ok ()) (hplain : p.Plain) {fuel : Nat}
    {clock : Clock} {e : CollectError} (h : collect p.graph options fuel clock p.roots = .error e) :
    CollectFails p options fuel clock e := by
  have hroots : checkRoots p.graph p.roots = .ok () :=
    checkRoots_eq_ok (fun _ => hplain.isText_root hp) (fun _ => p.contains_root hp)
  unfold collect at h
  rw [hroots] at h
  -- the stages in order: the roots, the deadline, the walks, and what is made of their paths
  rcases except_bind_eq_error h with h | ⟨_, _, h⟩
  · cases h
  rcases except_bind_eq_error h with h | ⟨deadline, _, h⟩
  · unfold Walk.deadline at h
    split at h
    · cases h
    · rename_i budget hb
      split at h
      · cases h
      · rename_i ht
        cases h
        exact .time hb ht
  rcases except_bind_eq_error h with h | ⟨_, _, h⟩
  · obtain ⟨fault, hexplore, rfl⟩ := except_mapError_eq_error h
    obtain ⟨root, hstarted, hexplore⟩ := mapM_eq_error hexplore
    have hroot : root ∈ p.roots := mem_sortedRoots (mem_startedRoots hstarted)
    obtain ⟨hbody, ⟨rfl, s, walk, hs, hw, hf⟩ | hobs⟩ :=
      explore_eq_error (p.contains_root hp hroot) hexplore
    · exact .endless hroot hs hw hf
    · obtain ⟨rfl, hkeyed⟩ := hobs.unkeyed (p.sound_graph hp)
        (fun i hi => hplain.jumps i (Program.mem_graph.mp hi)) hbody
      refine .unkeyed (Bool.eq_false_iff.mpr fun hk => ?_)
      rw [Program.isKeyed_graph hk] at hkeyed
      cases hkeyed
  · cases h

/-- In a consistent program with plain names, everything that walks from the roots look up is there and no step
fails. Collecting paths fails only where a time budget or a value in a statement or call is no fit, or a walk
outlasts the fuel; with fit values it returns a result unless a cycle of a body consists of calls alone. -/
theorem lookups_succeed {p : Program} (hp : p.check = .ok ()) (hplain : p.Plain) (options : Options) :
    (∀ root ∈ p.roots, HasBody p.graph root → ∀ s, Reaches p.graph options root s →
      Resolved p.graph s ∧ (∃ n, s.step p.graph options = .ok n) ∧
      ∀ b before after, AtBlock p.graph s b → b.statements = before ++ after →
        Resolved p.graph (s.run before)) ∧
    (∀ fuel clock e, collect p.graph options fuel clock p.roots = .error e →
      CollectFails p options fuel clock e) ∧
    ((∀ i ∈ p.instances, ∀ body, i.body = some body → body.CallsEnd) →
      p.instances.all Instance.isKeyed = true →
      ∃ n, ∀ fuel clock, n ≤ fuel →
        (∀ budget, options.timeBudget = some budget → (clock.reading 0).add? budget ≠ none) →
        ∃ c, collect p.graph options fuel clock p.roots = .ok c) := by
  have hg := p.sound_graph hp
  refine ⟨?_, fun fuel clock e h => collect_eq_error hp hplain h, ?_⟩
  · intro root _ hbody s hs
    have hblocks := hs.blocksNumbered fun i hi => hplain.jumps i (Program.mem_graph.mp hi)
    have hresolved := (hs.located hg hbody).resolved hblocks hs.reachable.tracked
    refine ⟨hresolved, (hs.located hg hbody).exists_step hg hblocks options, ?_⟩
    intro b before _ _ _
    exact hresolved.of_sameStack (sameStack_run s before) (run_reachable hs.reachable before).tracked
  · intro hends hkeyed
    obtain ⟨n, hn⟩ := exists_isWalkBound hg (fun i hi => hends i (Program.mem_graph.mp hi)) options
    refine ⟨enoughFuel options n, ?_⟩
    intro fuel clock hfuel hbudget
    cases h : collect p.graph options fuel clock p.roots with
    | ok c => exact ⟨c, rfl⟩
    | error e =>
      cases collect_eq_error hp hplain h with
      | time hb ht => exact absurd ht (hbudget _ hb)
      | unkeyed hk =>
        rw [hkeyed] at hk
        cases hk
      | endless _ hs hw hf =>
        have hle := hn _ _ hs _ hw
        unfold enoughFuel at hfuel
        omega

/-- A program that calls itself in a loop has its paths, with enough fuel. -/
theorem lookups_succeed_recursing :
    recursing.check = .ok () ∧ recursing.Plain ∧
    ∃ n, ∀ fuel, n ≤ fuel → ∃ c, collect recursing.graph {} fuel {} recursing.roots = .ok c := by
  have hp : recursing.check = .ok () := by decide +kernel
  have hplain : recursing.Plain := by decide
  have hkeyed : recursing.instances.all Instance.isKeyed = true := by decide
  refine ⟨hp, hplain, ?_⟩
  obtain ⟨n, hn⟩ := (lookups_succeed hp hplain {}).2.2 recursing_callsEnd hkeyed
  exact ⟨n, fun fuel hfuel => hn fuel {} hfuel fun budget hb => by cases hb⟩

def listFlagged : Program :=
  { unit := .str "unit", roots := [.str "main"], codegen := true, buildScript := false
    instances := [
      { id := .str "main", defPath := .str "main", typeArgs := [], signature := .str "",
        method := .null
        body := some { blocks := [
          { statements := [
              .acquire (.str "a") { site := .static, name := .str "A" } .mutex .unknown (.arr [.int 1])]
            terminator := .goto [.int 1] },
          { statements := [], terminator := .ret .null .unknown }] } }] }

/-- The program is consistent and has plain names, but the list is part of what tells states apart and cannot
be looked up. -/
theorem listFlagged_not_collected :
    listFlagged.check = .ok () ∧ listFlagged.Plain ∧
    (collect listFlagged.graph {} 9 {} listFlagged.roots).map (fun _ => ()) =
      .error (.walk .unkeyed) :=
  ⟨by decide +kernel, by decide, by decide +kernel⟩

end Walk

end LockAudit
