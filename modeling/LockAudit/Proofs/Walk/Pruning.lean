import LockAudit.Proofs.Walk.Enumeration
import LockAudit.Proofs.Walk.Revisits

/-! # The keys that an exploration has met

An exploration drops every state whose key it has met. Once no work is left, the keys it has met are those
of the states to which jumps and calls lead on walks with free choices: no such state is lost by dropping
another one, and no other key was ever met.
-/

namespace LockAudit.Walk

variable {g : CallGraph} {options : Options} {root : Name}

/-- On a walk from the root with free choices, a jump or a call leads to the state. -/
def Produced (g : CallGraph) (options : Options) (root : Name) (c : State) : Prop :=
  ∃ s t children, Reaches g options root s ∧ s.step g options = .ok (.onward t children) ∧ c ∈ children

/-- Once no work is left, the key of every state that a jump or a call produces is known. The walk that
produces it may have been dropped on its way, but then a state that goes on like it was processed. -/
theorem Explored.contains_key {seen : Seen} {finals : Trace → Prop} {processed : State → Prop}
    (h : Explored g options root seen [] finals processed) {c : State} (hc : Produced g options root c) :
    seen.contains c.key = true := by
  obtain ⟨s, t, children, hs, hstep, hmem⟩ := hc
  obtain ⟨x, hx, hxs⟩ := h.covers hs
  obtain ⟨n, hn⟩ := h.closed.steps x hx
  cases hxs.step hn hstep with
  | onward _ hchildren =>
    obtain ⟨d, hd, hdc⟩ := forall₂_exists_left hchildren hmem
    have hkey : d.key = c.key := (alike_iff.mp hdc).1
    rw [← hkey]
    exact h.closed.onward x _ _ hx hn d hd

/-! ### Where known keys come from -/

def Grounded (g : CallGraph) (options : Options) (root : Name) (seen : Seen) : Prop :=
  ∀ k, seen.contains k = true → ∃ c, Produced g options root c ∧ c.key = k

theorem grounded_empty : Grounded g options root .empty := by
  intro k hk
  simp at hk

/-- An advance adds only keys of states to which a jump or a call leads. -/
theorem advance_grounded {fuel : Nat} {seen : Seen} {log : List LogRecord} {settled : Option Trace}
    {s : State} {a : Advanced} (h : advance g options fuel seen log settled s = .ok a)
    (hs : Reaches g options root s) (hseen : Grounded g options root seen) :
    Grounded g options root a.seen := by
  induction fuel generalizing seen log settled s with
  | zero => cases h
  | succ fuel ih =>
    obtain ⟨_, _, _, ha⟩ | ⟨t, _, ht, h⟩ | ⟨t, children, seen', sifted, ht, _, hsift, h⟩ :=
      advance_cases h
    · rw [ha]
      exact hseen
    · exact ih h (hs.tail (.returned ht)) hseen
    · have hsifted := sift_sifted hsift
      have hgrounded : Grounded g options root seen' := by
        intro k hk
        rcases (hsifted.known k).mp hk with hk | ⟨c, hc, rfl⟩
        · exact hseen k hk
        · exact ⟨c, ⟨s, t, children, hs, ht, hc⟩, rfl⟩
      obtain ⟨only, _, ho, h⟩ | ⟨_, _, ha⟩ := h
      · have honly : only ∈ children := hsifted.mem only (ho ▸ List.mem_cons_self)
        exact ih h (hs.tail (.onward ht honly)) hgrounded
      · rw [ha]
        exact hgrounded

theorem exploreFrom_grounded {fuel : Nat} {p : Progress} {e : Exploration}
    (h : exploreFrom g options root fuel p = .ok e) (hw : ∀ s ∈ p.work, Reaches g options root s)
    (hp : Grounded g options root p.seen) : Grounded g options root e.seen := by
  induction fuel generalizing p with
  | zero => cases h
  | succ fuel ih =>
    obtain ⟨_, he, _⟩ | ⟨s, rest, a, q, hwork, _, ha, hq, h⟩ := exploreFrom_cases h
    · rw [he]
      exact hp
    · rw [hwork] at hw
      obtain ⟨hs, hrest⟩ := List.forall_mem_cons.mp hw
      obtain ⟨_, hstates⟩ := advance_left ha hs (by simp)
      obtain ⟨hseen, hwork', _⟩ := absorb_cases hq
      refine ih h (hwork' ▸ List.forall_mem_append.mpr ⟨hstates, hrest⟩) ?_
      rw [hseen]
      exact advance_grounded ha hs hp

/-! ### All keys of a root -/

/-- A root without a body has no walk beyond its entry. -/
theorem not_produced_of_step {fault : Fault} (h : (State.start root).step g options = .error fault)
    (c : State) : ¬Produced g options root c := by
  rintro ⟨s, t, children, hs, hstep, _⟩
  obtain rfl := hs.eq_start h
  rw [h] at hstep
  cases hstep

/-- An exploration that is not cut short has met exactly the keys of the states to which the jumps and calls
of all walks from the root lead. -/
theorem met_keys_exact {fuel : Nat} {e : Exploration} (h : explore g options fuel root = .ok e)
    (hcut : e.cut = false) (k : Key) :
    e.seen.contains k = true ↔ ∃ c, Produced g options root c ∧ c.key = k := by
  rcases explore_cases h with h | ⟨_, hseen, hstep⟩
  · constructor
    · exact exploreFrom_grounded h (fun _ => reaches_of_mem_start) grounded_empty k
    · rintro ⟨c, hc, rfl⟩
      obtain ⟨_, hexplored⟩ := exploreFrom_explored h hcut (explored_start g options root)
      exact hexplored.contains_key hc
  · rw [hseen]
    constructor
    · exact grounded_empty k
    · rintro ⟨c, hc, _⟩
      exact absurd hc (not_produced_of_step hstep c)

def crossing : Program :=
  let block (targets : List Target) : Block := { statements := [], terminator := .goto targets }
  { unit := .str "unit", roots := [.str "main"], codegen := true, buildScript := false
    instances := [
      { id := .str "main", defPath := .str "main", typeArgs := [], signature := .str "",
        method := .null
        body := some { blocks := [
          block [.int 1, .int 2], block [.int 2, .int 3], block [.int 1, .int 3],
          { statements := [], terminator := .ret .null .unknown }] } }] }

theorem Produced.jump {s c : State} {b : Block} {targets : List Target} (hs : Reaches g options root s)
    (hb : AtBlock g s b) (ht : b.terminator = .goto targets) (hnumbers : targets.all Name.isNumber = true)
    (hc : c ∈ (s.run b.statements).jumps options targets) : Produced g options root c := by
  refine ⟨s, s.run b.statements, _, hs, ?_, hc⟩
  simp only [hb.step, ht, State.finish, State.jump, hnumbers, if_true]
  rfl

/-- Two walks lead through both middle blocks to the last one. They differ in the order, and the key of the
state at the end of either is known although one of them was dropped there. -/
theorem met_keys_exact_crossing :
    crossing.check = .ok () ∧
    ∃ e, explore crossing.graph { maxRevisits := 1 } 20 (.str "main") = .ok e ∧ e.cut = false ∧
      e.seen.contains ([.int 1, .int 2, .int 3].foldl State.enter (.start (.str "main"))).key = true ∧
      e.seen.contains ([.int 2, .int 1, .int 3].foldl State.enter (.start (.str "main"))).key = true := by
  have hexplore : (explore crossing.graph { maxRevisits := 1 } 20 (.str "main")).map Exploration.cut =
      .ok false := by
    decide +kernel
  obtain ⟨e, he, hcut⟩ := except_map_eq_ok hexplore
  have hforth : Produced crossing.graph { maxRevisits := 1 } (.str "main")
      ([.int 1, .int 2, .int 3].foldl State.enter (.start (.str "main"))) := by
    have hs : (State.start (.str "main")).walk? crossing.graph { maxRevisits := 1 } [0, 0] =
        some ([.int 1, .int 2].foldl State.enter (.start (.str "main"))) := by
      decide +kernel
    have hat : blockAt crossing.graph (.str "main") (.int 2) =
        .ok { statements := [], terminator := .goto [.int 1, .int 3] } := by
      decide +kernel
    exact .jump (reaches_of_walk? .refl hs) ⟨_, _, _, rfl, rfl, hat⟩ rfl rfl (by decide +kernel)
  have hback : Produced crossing.graph { maxRevisits := 1 } (.str "main")
      ([.int 2, .int 1, .int 3].foldl State.enter (.start (.str "main"))) := by
    have hs : (State.start (.str "main")).walk? crossing.graph { maxRevisits := 1 } [1, 0] =
        some ([.int 2, .int 1].foldl State.enter (.start (.str "main"))) := by
      decide +kernel
    have hat : blockAt crossing.graph (.str "main") (.int 1) =
        .ok { statements := [], terminator := .goto [.int 2, .int 3] } := by
      decide +kernel
    exact .jump (reaches_of_walk? .refl hs) ⟨_, _, _, rfl, rfl, hat⟩ rfl rfl (by decide +kernel)
  exact ⟨by decide +kernel, e, he, hcut, (met_keys_exact he hcut _).mpr ⟨_, hforth, rfl⟩,
    (met_keys_exact he hcut _).mpr ⟨_, hback, rfl⟩⟩

end LockAudit.Walk
