import LockAudit.CallGraph.Basic
import LockAudit.Program.Consistency
import LockAudit.Proofs.Except
import LockAudit.Proofs.Name.Canonical

/-! # Consistent programs

A program that passes the check has at least one block in every body, and every jump of a body leads to a
block of the same body. The call graph of the program has the same bodies.
-/

namespace LockAudit

/-! ### Targets -/

namespace Number

open Binary64

theorem signedUnits_exact (i : Int) :
    signedUnits (i < 0) (i.natAbs * unitsPerOne) = i * Int.ofNat unitsPerOne := by
  rw [signedUnits_mul, signedUnits_sign]

theorem lt_whole {i j : Int} : (whole i).lt (whole j) = true ↔ i < j := by
  have hpos : 0 < Int.ofNat unitsPerOne := Int.ofNat_lt.mpr unitsPerOne_pos
  simp only [Number.lt, Number.exact, Binary64.lt, signedUnits_exact, decide_eq_true_eq]
  exact Int.mul_lt_mul_right hpos

theorem le_whole {i j : Int} : (whole i).le (whole j) = true ↔ i ≤ j := by
  have hpos : 0 < Int.ofNat unitsPerOne := Int.ofNat_lt.mpr unitsPerOne_pos
  simp only [Number.le, Number.exact, Binary64.le, Binary64.lt, Binary64.eq, signedUnits_exact,
    Bool.or_eq_true, decide_eq_true_eq, beq_iff_eq]
  rw [← Int.le_iff_lt_or_eq]
  exact Int.mul_le_mul_right hpos

end Number

namespace Target

variable {count : Nat} {t : Target}

theorem isNumber_of_within? (h : within? count t = some true) : Name.isNumber t = true := by
  obtain ⟨n, hn, _⟩ := Option.map_eq_some_iff.mp h
  exact Option.isSome_of_eq_some hn

theorem isKey_of_within? (h : within? count t = some true) : Name.isKey t = true := by
  have hn := isNumber_of_within? h
  cases t <;> first | rfl | cases hn

theorem number?_of_index? {k : Int} (h : index? t = some k) : Json.number? t = some (.whole k) := by
  cases t <;> cases h <;> rfl

/-- A target that passes the check and names a block by a number names one of the body. -/
theorem exists_lt_of_within? (h : within? count t = some true) {k : Int} (hk : index? t = some k) :
    ∃ i < count, k = Int.ofNat i := by
  simp only [within?, number?_of_index? hk, Option.map_some, Option.some.injEq, Bool.and_eq_true,
    Number.le_whole, Number.lt_whole] at h
  obtain ⟨i, rfl⟩ := Int.eq_ofNat_of_zero_le h.1
  exact ⟨i, Int.ofNat_lt.mp h.2, rfl⟩

theorem within?_zero (h : 0 < count) : within? count (.int 0) = some true := by
  simp only [within?, number?_of_index? (t := .int 0) rfl, Option.map_some, Option.some.injEq,
    Bool.and_eq_true, Number.le_whole, Number.lt_whole]
  exact ⟨Int.le_refl 0, Int.ofNat_lt.mpr h⟩

end Target

theorem Body.block?_ofNat (b : Body) (i : Nat) : b.block? (Int.ofNat i) = b.blocks[i]? := by
  have h : ¬ Int.ofNat i < 0 := Int.not_lt.mpr (Int.natCast_nonneg i)
  simp only [block?, h, if_false]
  rfl

theorem Body.mem_of_block? {b : Body} {index : Int} {block : Block} (h : b.block? index = some block) :
    block ∈ b.blocks := by
  unfold block? at h
  extract_lets i at h
  split at h
  · cases h
  · exact List.mem_of_getElem? h

/-! ### Bodies -/

structure Body.Sound (b : Body) : Prop where
  nonempty : 0 < b.blocks.length
  inside : ∀ block ∈ b.blocks, ∀ t ∈ block.terminator.successors,
    Target.within? b.blocks.length t = some true

theorem inside_of_checkTargets {id : Name} {count block : Nat} {ts : List Target}
    (h : checkTargets id count block ts = .ok ()) : ∀ t ∈ ts, Target.within? count t = some true := by
  induction ts with
  | nil => simp
  | cons t ts ih =>
    unfold checkTargets at h
    split at h
    · cases h
    · cases h
    · rename_i ht
      exact List.forall_mem_cons.mpr ⟨ht, ih h⟩

theorem inside_of_checkBlocks {id : Name} {count index : Nat} {bs : List Block}
    (h : checkBlocks id count index bs = .ok ()) :
    ∀ b ∈ bs, ∀ t ∈ b.terminator.successors, Target.within? count t = some true := by
  induction bs generalizing index with
  | nil => simp
  | cons b bs ih =>
    obtain ⟨⟨⟩, hb, h⟩ := except_bind_eq_ok h
    exact List.forall_mem_cons.mpr ⟨inside_of_checkTargets hb, ih h⟩

theorem Instance.sound_of_check {i : Instance} (h : i.check = .ok ()) {body : Body}
    (hb : i.body = some body) : body.Sound := by
  simp only [Instance.check, hb] at h
  split at h
  · cases h
  · rename_i hne
    rw [List.isEmpty_iff] at hne
    exact ⟨List.length_pos_iff.mpr hne, inside_of_checkBlocks h⟩

theorem checkTargets_eq_ok {id : Name} {count block : Nat} {ts : List Target}
    (h : ∀ t ∈ ts, Target.within? count t = some true) : checkTargets id count block ts = .ok () := by
  induction ts with
  | nil => rfl
  | cons t ts ih =>
    obtain ⟨ht, hts⟩ := List.forall_mem_cons.mp h
    rw [checkTargets, ht]
    exact ih hts

theorem checkBlocks_eq_ok {id : Name} {count index : Nat} {bs : List Block}
    (h : ∀ b ∈ bs, ∀ t ∈ b.terminator.successors, Target.within? count t = some true) :
    checkBlocks id count index bs = .ok () := by
  induction bs generalizing index with
  | nil => rfl
  | cons b bs ih =>
    obtain ⟨hb, hbs⟩ := List.forall_mem_cons.mp h
    rw [checkBlocks, checkTargets_eq_ok hb]
    exact ih hbs

/-- An instance passes the check if its body, if it has one, is sound. -/
theorem Instance.check_eq_ok {i : Instance} (h : ∀ body, i.body = some body → body.Sound) :
    i.check = .ok () := by
  unfold Instance.check
  split
  · rfl
  · rename_i body hb
    have hsound := h body hb
    have hne : body.blocks.isEmpty = false := by
      rw [List.isEmpty_eq_false_iff]
      exact List.length_pos_iff.mp hsound.nonempty
    rw [hne]
    exact checkBlocks_eq_ok hsound.inside

theorem Program.checkRoots_eq_ok_iff {p : Program} : p.checkRoots = .ok () ↔
    (∀ r ∈ p.roots, r.isKey = true) ∧ ∀ r ∈ p.roots, ∃ i ∈ p.instances, r.same i.id = true := by
  have hmissing : p.missingRoots = [] ↔ ∀ r ∈ p.roots, ∃ i ∈ p.instances, r.same i.id = true := by
    simp [missingRoots, ids]
  unfold checkRoots
  rw [← List.all_eq_true, ← hmissing, ← List.isEmpty_iff]
  cases p.roots.all Name.isKey with
  | false => simp
  | true =>
    cases p.missingRoots.isEmpty with
    | true => simp
    | false => cases Name.texts? p.missingRoots <;> simp

/-- A program passes the check if its roots are named like instances and each instance passes. -/
theorem Program.check_eq_ok_iff {p : Program} : p.check = .ok () ↔
    (∀ r ∈ p.roots, r.isKey = true) ∧ (∀ r ∈ p.roots, ∃ i ∈ p.instances, r.same i.id = true) ∧
      ∀ i ∈ p.instances, i.check = .ok () := by
  rw [← and_assoc, ← checkRoots_eq_ok_iff]
  constructor
  · intro h
    obtain ⟨⟨⟩, hroots, h⟩ := except_bind_eq_ok h
    exact ⟨hroots, forall_mem_of_forM h⟩
  · rintro ⟨hroots, h⟩
    rw [check, hroots]
    exact forM_eq_ok h

theorem Program.sound_of_check {p : Program} (h : p.check = .ok ()) :
    ∀ i ∈ p.instances, ∀ body, i.body = some body → body.Sound := by
  obtain ⟨_, _, h⟩ := Program.check_eq_ok_iff.mp h
  exact fun i hi body hb => Instance.sound_of_check (h i hi) hb

/-! ### Call graphs -/

namespace CallGraph

theorem mem_of_instance? {g : CallGraph} {id : Name} {i : Instance} (h : g.instance? id = some i) :
    i ∈ g.instances :=
  List.mem_of_find?_eq_some h

theorem same_of_instance? {g : CallGraph} {id : Name} {i : Instance} (h : g.instance? id = some i) :
    i.id.same id = true :=
  List.find?_some (p := fun i : Instance => i.id.same id) h

def Sound (g : CallGraph) : Prop :=
  ∀ i ∈ g.instances, ∀ body, i.body = some body → body.Sound

end CallGraph

def Program.graph (p : Program) : CallGraph :=
  .build p.instances

theorem Program.mem_graph {p : Program} {i : Instance} : i ∈ p.graph.instances ↔ i ∈ p.instances :=
  (orderOn_perm Instance.id p.instances).mem_iff

theorem Program.sound_graph {p : Program} (h : p.check = .ok ()) : p.graph.Sound :=
  fun i hi => p.sound_of_check h i (mem_graph.mp hi)

end LockAudit
