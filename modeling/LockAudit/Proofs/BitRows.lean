import LockAudit.BitRows
import Mathlib.Data.List.Basic
import Mathlib.Logic.Relation

/-! # The closure of a relation

Taking each node once as a pivot is enough: the rows then tell exactly which nodes can be reached in one
or more steps. What carries the proof is that a pivot, once taken, stays one through which all ways go.
-/

namespace LockAudit.BitRows

/-- Whatever leads to the node at position `k` leads to all that it leads to. -/
def PassesThrough (rows : BitRows) (k : Nat) : Prop :=
  ∀ i j, rows.leads i k = true → rows.leads k j = true → rows.leads i j = true

theorem leads_addPivot_iff {rows : BitRows} {k i j : Nat} :
    (rows.addPivot k).leads i j = true ↔
      rows.leads i j = true ∨ rows.leads i k = true ∧ rows.leads k j = true := by
  rw [leads_addPivot, Bool.or_eq_true, Bool.and_eq_true]

theorem addPivot_passesThrough (rows : BitRows) (k : Nat) : (rows.addPivot k).PassesThrough k := by
  intro i j hi hj
  rw [leads_addPivot_iff] at hi hj ⊢
  have hik : rows.leads i k = true := hi.elim id And.left
  have hkj : rows.leads k j = true := hj.elim id And.right
  exact .inr ⟨hik, hkj⟩

theorem PassesThrough.addPivot {rows : BitRows} {l : Nat} (h : rows.PassesThrough l) (k : Nat) :
    (rows.addPivot k).PassesThrough l := by
  intro i j hi hj
  rw [leads_addPivot_iff] at hi hj ⊢
  rcases hi with hil | ⟨hik, hkl⟩
  · rcases hj with hlj | ⟨hlk, hkj⟩
    · exact .inl (h i j hil hlj)
    · exact .inr ⟨h i k hil hlk, hkj⟩
  · rcases hj with hlj | ⟨_, hkj⟩
    · exact .inr ⟨hik, h k j hkl hlj⟩
    · exact .inr ⟨hik, hkj⟩

theorem length_closure (rows : BitRows) : rows.closure.length = rows.length := by
  have hfold : ∀ (pivots : List Nat) (rows : BitRows), (pivots.foldl addPivot rows).length = rows.length := by
    intro pivots
    induction pivots with
    | nil => exact fun _ => rfl
    | cons k pivots ih =>
      intro rows
      rw [List.foldl_cons, ih, addPivot, List.length_map]
  exact hfold _ rows

theorem foldl_addPivot_leads {rows : BitRows} (pivots : List Nat) {i j : Nat}
    (h : rows.leads i j = true) : (pivots.foldl addPivot rows).leads i j = true := by
  induction pivots generalizing rows with
  | nil => exact h
  | cons k pivots ih => exact ih (leads_addPivot_iff.mpr (.inl h))

theorem foldl_addPivot_passesThrough {rows : BitRows} {pivots : List Nat} {k : Nat}
    (h : k ∈ pivots ∨ rows.PassesThrough k) : (pivots.foldl addPivot rows).PassesThrough k := by
  induction pivots generalizing rows with
  | nil => exact h.resolve_left List.not_mem_nil
  | cons l pivots ih =>
    refine ih ?_
    rcases h with h | h
    · rcases List.mem_cons.mp h with rfl | h
      · exact .inr (addPivot_passesThrough rows k)
      · exact .inl h
    · exact .inr (h.addPivot l)

/-- A pivot adds only what could be reached before. -/
theorem foldl_addPivot_reaches {rows : BitRows} {pivots : List Nat} {i j : Nat}
    (h : (pivots.foldl addPivot rows).leads i j = true) :
    Relation.TransGen (fun a b => rows.leads a b = true) i j := by
  induction pivots generalizing rows with
  | nil => exact .single h
  | cons k pivots ih =>
    have hstep : ∀ a b, (rows.addPivot k).leads a b = true →
        Relation.TransGen (fun a b => rows.leads a b = true) a b := by
      intro a b hab
      rcases leads_addPivot_iff.mp hab with hab | ⟨hak, hkb⟩
      · exact .single hab
      · exact .tail (.single hak) hkb
    exact Relation.transGen_minimal hstep _ _ (ih h)

theorem leads_closure {rows : BitRows} (hrows : ∀ i j, rows.leads i j = true → j < rows.length)
    {i j : Nat} :
    rows.closure.leads i j = true ↔ Relation.TransGen (fun a b => rows.leads a b = true) i j := by
  constructor
  · exact foldl_addPivot_reaches
  · intro h
    induction h with
    | single h => exact foldl_addPivot_leads _ h
    | @tail b c hib hbc ih =>
      have hb : b < rows.length := by
        cases hib with
        | single h => exact hrows _ _ h
        | tail _ h => exact hrows _ _ h
      exact foldl_addPivot_passesThrough (.inl (List.mem_range.mpr hb)) i c ih
        (foldl_addPivot_leads _ hbc)

/-! ### Rows of edges -/

theorem testBit_foldl (positions : List Nat) (row j : Nat) :
    (positions.foldl (fun row j => row ||| Nat.shiftLeft 1 j) row).testBit j = true ↔
      row.testBit j = true ∨ j ∈ positions := by
  induction positions generalizing row with
  | nil => simp
  | cons k positions ih =>
    have hbit : (Nat.shiftLeft 1 k).testBit j = decide (k = j) := by
      change (1 <<< k).testBit j = _
      rw [Nat.one_shiftLeft, Nat.testBit_two_pow]
    rw [List.foldl_cons, ih, Nat.testBit_or, hbit, Bool.or_eq_true, decide_eq_true_iff, List.mem_cons,
      eq_comm (a := k), or_assoc]

variable {α : Type} [BEq α] [LawfulBEq α] {nodes : List α} {edges : List (α × α)}

theorem leads_ofEdges {i j : Nat} :
    (ofEdges nodes edges).leads i j = true ↔
      ∃ e ∈ edges, nodes[i]? = some e.1 ∧ nodes.idxOf e.2 = j := by
  unfold leads ofEdges
  rw [List.getElem?_map]
  cases hi : nodes[i]? with
  | none => simp
  | some a =>
    rw [Option.map_some, Option.getD_some, ofPositions, testBit_foldl]
    simp only [Nat.zero_testBit, Bool.false_eq_true, false_or, List.mem_map, List.mem_filter,
      beq_iff_eq, Option.some.injEq, and_assoc, eq_comm (a := a)]

/-- The closed rows of edges between listed nodes tell which nodes can be reached from which. -/
theorem leads_closure_ofEdges (hedges : ∀ e ∈ edges, e.1 ∈ nodes ∧ e.2 ∈ nodes) {a b : α}
    (ha : a ∈ nodes) (hb : b ∈ nodes) :
    (ofEdges nodes edges).closure.leads (nodes.idxOf a) (nodes.idxOf b) = true ↔
      Relation.TransGen (fun x y => (x, y) ∈ edges) a b := by
  have hlength : (ofEdges nodes edges).length = nodes.length := List.length_map _
  have hrows : ∀ i j, (ofEdges nodes edges).leads i j = true → j < (ofEdges nodes edges).length := by
    intro i j h
    obtain ⟨e, he, _, rfl⟩ := leads_ofEdges.mp h
    rw [hlength]
    exact List.idxOf_lt_length_of_mem (hedges e he).2
  rw [leads_closure hrows]
  constructor
  · intro h
    have hreach : ∀ j, Relation.TransGen (fun i j => (ofEdges nodes edges).leads i j = true)
        (nodes.idxOf a) j → ∃ c, nodes[j]? = some c ∧ Relation.TransGen (fun x y => (x, y) ∈ edges) a c := by
      intro j hj
      induction hj with
      | single hj =>
        obtain ⟨⟨x, y⟩, he, hx, rfl⟩ := leads_ofEdges.mp hj
        obtain rfl : a = x := Option.some.inj ((List.getElem?_idxOf ha).symm.trans hx)
        exact ⟨y, List.getElem?_idxOf (hedges _ he).2, .single he⟩
      | tail _ hj ih =>
        obtain ⟨c, hc, hac⟩ := ih
        obtain ⟨⟨x, y⟩, he, hx, rfl⟩ := leads_ofEdges.mp hj
        obtain rfl : c = x := Option.some.inj (hc.symm.trans hx)
        exact ⟨y, List.getElem?_idxOf (hedges _ he).2, hac.tail he⟩
    obtain ⟨c, hc, hac⟩ := hreach _ h
    obtain rfl : b = c := Option.some.inj ((List.getElem?_idxOf hb).symm.trans hc)
    exact hac
  · refine Relation.TransGen.lift nodes.idxOf ?_ a b
    intro x y he
    exact leads_ofEdges.mpr ⟨(x, y), he, List.getElem?_idxOf (hedges _ he).1, rfl⟩

end LockAudit.BitRows
