import LockAudit.Proofs.Walk.Stack
import Mathlib.Data.Finset.Card
import Mathlib.Data.Finset.Lattice.Fold

/-! # Walks end

A jump needs a block that was not entered too often, so it uses up some of the entries that an activation
has left. A call that is followed needs none, but where no cycle of a body consists of calls alone, the
activation comes nearer to a block that does not call. The callee starts with all its entries unused; since
the stack has a greatest depth, it can be given less weight than one step of its caller.
-/

namespace LockAudit

/-! ### Chains of calls -/

namespace Body

def CallsTo (b : Body) (i j : Nat) : Prop :=
  ∃ block c t, b.blocks[i]? = some block ∧ block.terminator = .call c ∧ c.target = some t ∧
    Target.index? t = some (Int.ofNat j)

/-- No cycle of blocks consists of calls alone. -/
def CallsEnd (b : Body) : Prop :=
  ∀ i, ¬ Relation.TransGen b.CallsTo i i

theorem callsEnd_of_lt {b : Body} (h : ∀ i j, b.CallsTo i j → i < j) : b.CallsEnd := by
  have hlt : ∀ i j, Relation.TransGen b.CallsTo i j → i < j := by
    intro i j hij
    induction hij with
    | single hc => exact h _ _ hc
    | tail _ hc ih => exact ih.trans (h _ _ hc)
  exact fun i hi => Nat.lt_irrefl i (hlt i i hi)

open Classical in
noncomputable def ahead (b : Body) (i : Nat) : Finset Nat :=
  {j ∈ Finset.range b.blocks.length | Relation.TransGen b.CallsTo i j}

theorem mem_ahead {b : Body} {i j : Nat} :
    j ∈ b.ahead i ↔ j < b.blocks.length ∧ Relation.TransGen b.CallsTo i j := by
  simp only [ahead, Finset.mem_filter, Finset.mem_range]

theorem card_ahead_le (b : Body) (i : Nat) : (b.ahead i).card ≤ b.blocks.length := by
  have hsub : b.ahead i ⊆ Finset.range b.blocks.length :=
    fun j hj => Finset.mem_range.mpr (mem_ahead.mp hj).1
  simpa using Finset.card_le_card hsub

theorem card_ahead_lt {b : Body} (hb : b.CallsEnd) {i j : Nat} (h : b.CallsTo i j)
    (hj : j < b.blocks.length) : (b.ahead j).card < (b.ahead i).card := by
  refine Finset.card_lt_card ⟨?_, ?_⟩
  · intro k hk
    obtain ⟨hlt, hjk⟩ := mem_ahead.mp hk
    exact mem_ahead.mpr ⟨hlt, .head h hjk⟩
  · intro hsub
    have hself : j ∈ b.ahead j := hsub (mem_ahead.mpr ⟨hj, .single h⟩)
    exact hb j (mem_ahead.mp hself).2

noncomputable def rank (b : Body) (block : Option Target) : Nat :=
  match block.bind Target.index? with
  | none => 0
  | some k => (b.ahead k.toNat).card + 1

theorem rank_le (b : Body) (block : Option Target) : b.rank block ≤ b.blocks.length + 1 := by
  unfold rank
  split
  · exact Nat.zero_le _
  · exact Nat.succ_le_succ (b.card_ahead_le _)

theorem rank_pos {b : Body} {block : Target} {k : Int} (h : Target.index? block = some k) :
    0 < b.rank (some block) := by
  simp only [rank, Option.bind_some, h]
  exact Nat.succ_pos _

/-- Behind a call the chain of calls ahead is shorter, since calls alone make no circle. -/
theorem rank_lt {b : Body} (hb : b.CallsEnd) {block : Target} {i : Nat}
    (hi : Target.index? block = some (Int.ofNat i)) {caller : Block}
    (hcaller : b.blocks[i]? = some caller) {c : Call} (hc : caller.terminator = .call c)
    (hin : ∀ t, c.target = some t → Target.within? b.blocks.length t = some true) :
    b.rank c.target < b.rank (some block) := by
  cases ht : c.target with
  | none => exact rank_pos hi
  | some t =>
    cases hk : Target.index? t with
    | none =>
      -- no walk goes on from a target that names no block
      simp only [rank, Option.bind_some, hk, hi]
      exact Nat.succ_pos _
    | some k =>
      obtain ⟨j, hj, rfl⟩ := Target.exists_lt_of_within? (hin t ht) hk
      have hlt := card_ahead_lt hb ⟨caller, c, t, hcaller, hc, ht, hk⟩ hj
      simp only [rank, Option.bind_some, hk, hi]
      exact Nat.succ_lt_succ hlt

def targets (b : Body) : List Target :=
  b.blocks.flatMap fun block => block.terminator.successors

def heaviest (options : Options) (b : Body) : Nat :=
  options.maxRevisits * b.targets.length * (b.blocks.length + 2) + (b.blocks.length + 1)

end Body

def CallGraph.CallsEnd (g : CallGraph) : Prop :=
  ∀ i ∈ g.instances, ∀ body, i.body = some body → body.CallsEnd

namespace Walk

/-! ### Entries that are left -/

def Visits.spare (vs : Visits) (bound frame : Nat) : List Target → Nat
  | [] => 0
  | t :: ts => (bound - vs.count frame t) + vs.spare bound frame ts

def Visits.Below (vs ws : Visits) : Prop :=
  ∀ f b, vs.count f b ≤ ws.count f b

namespace Visits

theorem Below.trans {us vs ws : Visits} (huv : us.Below vs) (hvw : vs.Below ws) : us.Below ws :=
  fun f b => (huv f b).trans (hvw f b)

theorem Ascending.below_enter {vs : Visits} (h : vs.Ascending) {block : Target}
    (hb : Name.isKey block = true) (frame : Nat) : vs.Below (Visits.enter frame block vs) :=
  fun f b => h.count_le_enter hb frame f b

theorem Ascending.below_await {vs : Visits} (h : vs.Ascending) (frame : Nat) {target : Option Target}
    (ht : ∀ t, target = some t → Name.isKey t = true) : vs.Below (vs.await frame target) := by
  cases target with
  | none => exact fun _ _ => Nat.le_refl _
  | some t => exact h.below_enter (ht t rfl) frame

theorem spare_le (vs : Visits) (bound frame : Nat) (ts : List Target) :
    vs.spare bound frame ts ≤ bound * ts.length := by
  induction ts with
  | nil => exact Nat.zero_le _
  | cons t ts ih =>
    rw [spare, List.length_cons, Nat.mul_succ]
    omega

theorem Below.spare_le {vs ws : Visits} (h : vs.Below ws) (bound frame : Nat) (ts : List Target) :
    ws.spare bound frame ts ≤ vs.spare bound frame ts := by
  induction ts with
  | nil => exact Nat.le_refl _
  | cons t ts ih => exact Nat.add_le_add (Nat.sub_le_sub_left (h frame t) bound) ih

theorem Below.spare_lt {vs ws : Visits} (h : vs.Below ws) {bound frame : Nat} {t : Target}
    (hlt : vs.count frame t < ws.count frame t) (hb : vs.count frame t < bound) {ts : List Target}
    (ht : t ∈ ts) : ws.spare bound frame ts < vs.spare bound frame ts := by
  induction ts with
  | nil => cases ht
  | cons u ts ih =>
    have hle := h.spare_le bound frame ts
    have hu := h frame u
    rw [spare, spare]
    rcases List.mem_cons.mp ht with rfl | ht
    · omega
    · have := ih ht
      omega

end Visits

/-! ### Weights -/

section

variable (g : CallGraph) (options : Options)

def bodyOf (g : CallGraph) (inst : Name) : Body :=
  ((g.instance? inst).bind Instance.body).getD { blocks := [] }

/-- What an activation may still do apart from its callees: jumps first, then chains of calls. -/
noncomputable def Frame.weight (vs : Visits) (f : Frame) : Nat :=
  vs.spare options.maxRevisits f.number (bodyOf g f.inst).targets *
    ((bodyOf g f.inst).blocks.length + 2) + (bodyOf g f.inst).rank f.block

def IsCeiling (ceiling : Nat) : Prop :=
  ∀ vs f, Frame.weight g options vs f < ceiling

/-- What a stack may still do. A step of an activation outweighs all that its callees may do. -/
noncomputable def stackWeight (ceiling : Nat) (vs : Visits) : List Frame → Nat
  | [] => 0
  | f :: callers => stackWeight ceiling vs callers +
      Frame.weight g options vs f * ceiling ^ (options.maxDepth - callers.length)

noncomputable def State.weight (ceiling : Nat) (s : State) : Nat :=
  stackWeight g options ceiling s.visits s.frames

end

variable {g : CallGraph} {options : Options}

theorem bodyOf_eq {inst : Name} {i : Instance} {body : Body} (hi : g.instance? inst = some i)
    (hb : i.body = some body) : bodyOf g inst = body := by
  simp only [bodyOf, hi, Option.bind_some, hb, Option.getD_some]

theorem bodyOf_mem (inst : Name) :
    bodyOf g inst ∈ { blocks := [] } :: g.instances.filterMap Instance.body := by
  unfold bodyOf
  cases h : (g.instance? inst).bind Instance.body with
  | none => exact List.mem_cons_self
  | some body =>
    obtain ⟨i, hi, hb⟩ := Option.bind_eq_some_iff.mp h
    exact List.mem_cons_of_mem _ (List.mem_filterMap.mpr ⟨i, CallGraph.mem_of_instance? hi, hb⟩)

theorem Frame.weight_le (vs : Visits) (f : Frame) :
    Frame.weight g options vs f ≤ (bodyOf g f.inst).heaviest options :=
  Nat.add_le_add (Nat.mul_le_mul_right _ (vs.spare_le _ _ _)) (Body.rank_le _ _)

theorem exists_ceiling (g : CallGraph) (options : Options) : ∃ ceiling, IsCeiling g options ceiling := by
  have hmem (f : Frame) := List.mem_toFinset.mpr (bodyOf_mem (g := g) f.inst)
  exact ⟨_, fun vs f => Nat.lt_succ_of_le
    ((Frame.weight_le vs f).trans (Finset.le_sup (f := Body.heaviest options) (hmem f)))⟩

theorem Frame.weight_mono {vs ws : Visits} (h : vs.Below ws) (f : Frame) :
    Frame.weight g options ws f ≤ Frame.weight g options vs f :=
  Nat.add_le_add_right (Nat.mul_le_mul_right _ (h.spare_le _ _ _)) _

theorem stackWeight_mono (g : CallGraph) (options : Options) {vs ws : Visits} (h : vs.Below ws)
    (ceiling : Nat) (frames : List Frame) :
    stackWeight g options ceiling ws frames ≤ stackWeight g options ceiling vs frames := by
  induction frames with
  | nil => exact Nat.le_refl _
  | cons f callers ih => exact Nat.add_le_add ih (Nat.mul_le_mul_right _ (Frame.weight_mono h f))

theorem mul_pow_lt {weight ceiling : Nat} (h : weight < ceiling) (n : Nat) :
    weight * ceiling ^ n < ceiling ^ (n + 1) := by
  rw [Nat.pow_succ, Nat.mul_comm]
  exact Nat.mul_lt_mul_of_pos_left h (Nat.pow_pos (Nat.zero_lt_of_lt h))

/-! ### Each step takes away weight -/

structure Runs (g : CallGraph) (f : Frame) (block : Target) (b : Block) (k : Nat) : Prop where
  standing : f.block = some block
  index : Target.index? block = some (Int.ofNat k)
  block : (bodyOf g f.inst).blocks[k]? = some b
  inside : ∀ t ∈ b.terminator.successors,
    Target.within? (bodyOf g f.inst).blocks.length t = some true

theorem Placed.runs (hg : g.Sound) {f : Frame} (hp : Placed g f) {block : Target}
    (hf : f.block = some block) {b : Block} (hat : blockAt g f.inst block = .ok b) :
    ∃ k, Runs g f block b k := by
  obtain ⟨i, body, hi, hb, hin⟩ := hp
  obtain ⟨i', body', index, hi', hb', hindex, hblock⟩ := blockAt_eq_ok hat
  obtain rfl := Option.some.inj (hi.symm.trans hi')
  obtain rfl := Option.some.inj (hb.symm.trans hb')
  obtain ⟨k, _, rfl⟩ := Target.exists_lt_of_within? (hin block hf) hindex
  have hbody := bodyOf_eq hi hb
  rw [Body.block?_ofNat] at hblock
  refine ⟨k, hf, hindex, hbody ▸ hblock, fun t ht => ?_⟩
  rw [hbody]
  exact inside_of_blockAt hg hat hi hb ht

namespace Runs

variable {f : Frame} {block : Target} {b : Block} {k : Nat}

theorem weight_pos (h : Runs g f block b k) (vs : Visits) : 0 < Frame.weight g options vs f := by
  have hrank : 0 < (bodyOf g f.inst).rank f.block := h.standing ▸ Body.rank_pos h.index
  exact Nat.add_pos_right _ hrank

/-- A jump takes away one of the entries that are left, whatever chain of calls it leads to. -/
theorem weight_enter (h : Runs g f block b k) {vs : Visits} (hasc : vs.Ascending) {t : Target}
    (ht : t ∈ b.terminator.successors) (hc : vs.count f.number t < options.maxRevisits) :
    Frame.weight g options (vs.enter f.number t) { f with block := some t } <
      Frame.weight g options vs f := by
  have hkey := Target.isKey_of_within? (h.inside t ht)
  have htargets : t ∈ (bodyOf g f.inst).targets :=
    List.mem_flatMap.mpr ⟨b, List.mem_of_getElem? h.block, ht⟩
  have hentered : vs.count f.number t < (Visits.enter f.number t vs).count f.number t := by
    rw [hasc.count_enter_self hkey]
    exact Nat.lt_succ_self _
  have hspare := (hasc.below_enter hkey f.number).spare_lt hentered hc htargets
  have hrank := (bodyOf g f.inst).rank_le (some t)
  unfold Frame.weight
  generalize (bodyOf g f.inst).blocks.length = n at hrank ⊢
  generalize (bodyOf g f.inst).rank (some t) = r at hrank ⊢
  -- the rank may go up, but by less than one entry weighs
  have hmul := Nat.mul_le_mul_right (n + 2) hspare
  rw [Nat.succ_mul] at hmul
  dsimp only
  omega

theorem weight_await (h : Runs g f block b k) (options : Options)
    (hends : (bodyOf g f.inst).CallsEnd) {c : Call} (hc : b.terminator = .call c) {vs ws : Visits}
    (hbelow : vs.Below ws) :
    Frame.weight g options ws { f with block := c.target } < Frame.weight g options vs f := by
  have hin : ∀ t, c.target = some t →
      Target.within? (bodyOf g f.inst).blocks.length t = some true := by
    intro t ht
    refine h.inside t ?_
    simp [hc, Terminator.successors, ht]
  have hrank := Body.rank_lt hends h.index h.block hc hin
  rw [← h.standing] at hrank
  exact Nat.add_lt_add_of_le_of_lt (Nat.mul_le_mul_right _ (hbelow.spare_le _ _ _)) hrank

/-- The weight of a stack goes down with every move. -/
theorem stackWeight_lt (h : Runs g f block b k) (hends : (bodyOf g f.inst).CallsEnd) {ceiling : Nat}
    (hceiling : IsCeiling g options ceiling) {vs vs' : Visits} (hasc : vs.Ascending)
    {callers frames : List Frame} {next : Nat}
    (hm : Moves g options f callers vs next b.terminator frames vs') :
    stackWeight g options ceiling vs' frames < stackWeight g options ceiling vs (f :: callers) := by
  have hpos : 0 < ceiling := Nat.zero_lt_of_lt (hceiling vs f)
  rw [stackWeight]
  cases hm with
  | ended => exact Nat.lt_add_of_pos_right (Nat.mul_pos (h.weight_pos vs) (Nat.pow_pos hpos))
  | entered t ht hc =>
    have hbelow := hasc.below_enter (Target.isKey_of_within? (h.inside t ht)) f.number
    exact Nat.add_lt_add_of_le_of_lt (stackWeight_mono g options hbelow ceiling callers)
      (Nat.mul_lt_mul_of_pos_right (h.weight_enter hasc ht hc) (Nat.pow_pos hpos))
  | called c hterm callee i hi hb hd =>
    have hkey : ∀ t, c.target = some t → Name.isKey t = true := by
      intro t ht
      refine Target.isKey_of_within? (h.inside t ?_)
      simp [hterm, Terminator.successors, ht]
    have hentry : Name.isKey (.int 0) = true := rfl
    have hbelow := (hasc.below_await f.number hkey).trans
      ((hasc.await f.number hkey).below_enter hentry next)
    have hcallers := stackWeight_mono g options hbelow ceiling callers
    have hcaller := h.weight_await options hends hterm hbelow
    have hcallee := hceiling ((vs.await f.number c.target).enter next (.int 0))
      { inst := callee, block := some (.int 0), number := next, returnTo := c.destination }
    have hroom : options.maxDepth - callers.length = options.maxDepth - (callers.length + 1) + 1 := by
      omega
    rw [stackWeight, stackWeight, List.length_cons, hroom]
    -- the callee weighs less than the step that its caller has made
    calc
      _ < stackWeight g options ceiling vs callers + _ +
          ceiling ^ (options.maxDepth - (callers.length + 1) + 1) :=
        Nat.add_lt_add_of_le_of_lt (Nat.add_le_add_right hcallers _) (mul_pow_lt hcallee _)
      _ = stackWeight g options ceiling vs callers + (_ + 1) *
          ceiling ^ (options.maxDepth - (callers.length + 1) + 1) := by
        rw [Nat.succ_mul, Nat.add_assoc]
      _ ≤ _ := Nat.add_le_add_left (Nat.mul_le_mul_right _ hcaller) _

end Runs

theorem Follows.weight_lt (hg : g.Sound) (hends : g.CallsEnd) {ceiling : Nat}
    (hceiling : IsCeiling g options ceiling) {s t : State} (h : Follows g options s t)
    (hs : Located g s) : t.weight g options ceiling < s.weight g options ceiling := by
  obtain ⟨frame, callers, block, b, hf, hblock, hat, hmoves⟩ := h.moves
  have hplaced : Placed g frame := hs.placed frame (by simp [hf])
  obtain ⟨k, hruns⟩ := hplaced.runs hg hblock hat
  obtain ⟨i, body, hi, hb, _⟩ := hplaced
  have hbody : (bodyOf g frame.inst).CallsEnd := by
    rw [bodyOf_eq hi hb]
    exact hends i (CallGraph.mem_of_instance? hi) body hb
  unfold State.weight
  rw [hf]
  exact hruns.stackWeight_lt hbody hceiling hs.ascending hmoves

/-! ### Walks are bounded -/

theorem length_le_weight (hg : g.Sound) (hends : g.CallsEnd) {ceiling : Nat}
    (hceiling : IsCeiling g options ceiling) {s : State} (hs : Located g s) {walk : List State}
    (h : (s :: walk).IsChain (Follows g options)) : walk.length ≤ s.weight g options ceiling := by
  induction walk generalizing s with
  | nil => exact Nat.zero_le _
  | cons t walk ih =>
    obtain ⟨hst, hwalk⟩ := List.isChain_cons_cons.mp h
    have hlt := hst.weight_lt hg hends hceiling hs
    have hle := ih (hst.located hg hs) hwalk
    exact Nat.succ_le_of_lt (Nat.lt_of_le_of_lt hle hlt)

theorem Reaches.weight_le (hg : g.Sound) (hends : g.CallsEnd) {ceiling : Nat}
    (hceiling : IsCeiling g options ceiling) {root : Name} (hroot : HasBody g root) {s : State}
    (h : Reaches g options root s) :
    s.weight g options ceiling ≤ (State.start root).weight g options ceiling := by
  induction h with
  | refl => exact Nat.le_refl _
  | tail hs hf ih =>
    exact Nat.le_trans (Nat.le_of_lt (hf.weight_lt hg hends hceiling (Reaches.located hg hroot hs))) ih

theorem weight_start_le {ceiling : Nat} (hceiling : IsCeiling g options ceiling) (root : Name) :
    (State.start root).weight g options ceiling ≤ ceiling * ceiling ^ options.maxDepth := by
  simp only [State.weight, State.start, stackWeight, Nat.zero_add, List.length_nil, Nat.sub_zero]
  exact Nat.mul_le_mul_right _ (Nat.le_of_lt (hceiling _ _))

theorem Follows.hasBody {root : Name} {t : State} (h : Follows g options (.start root) t) :
    HasBody g root := by
  obtain ⟨frame, callers, block, b, hf, _, hat, _⟩ := h.moves
  cases hf
  obtain ⟨i, body, _, hi, hb, _⟩ := blockAt_eq_ok hat
  exact ⟨i, body, hi, hb⟩

def IsWalkBound (g : CallGraph) (options : Options) (n : Nat) : Prop :=
  ∀ root s, Reaches g options root s →
    ∀ walk, (s :: walk).IsChain (Follows g options) → walk.length ≤ n

/-- The weight of the stack falls with every step, so that it bounds the length of all walks. -/
theorem exists_isWalkBound (hg : g.Sound) (hends : g.CallsEnd) (options : Options) :
    ∃ n, IsWalkBound g options n := by
  obtain ⟨ceiling, hceiling⟩ := exists_ceiling g options
  refine ⟨ceiling * ceiling ^ options.maxDepth, ?_⟩
  intro root s hs walk hwalk
  by_cases hroot : ∃ t, Follows g options (.start root) t
  · obtain ⟨t, ht⟩ := hroot
    have hroot := ht.hasBody
    calc walk.length
      _ ≤ s.weight g options ceiling :=
        length_le_weight hg hends hceiling (hs.located hg hroot) hwalk
      _ ≤ (State.start root).weight g options ceiling := hs.weight_le hg hends hceiling hroot
      _ ≤ _ := weight_start_le hceiling root
  · cases walk with
    | nil => exact Nat.zero_le _
    | cons t walk =>
      obtain ⟨hst, _⟩ := List.isChain_cons_cons.mp hwalk
      rcases Relation.ReflTransGen.cases_head hs with rfl | ⟨u, hu, _⟩
      · exact absurd ⟨t, hst⟩ hroot
      · exact absurd ⟨u, hu⟩ hroot

end Walk

end LockAudit
