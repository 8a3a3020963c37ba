/-! # Results that may be errors

A chain of computations that may fail has a result only if all of them have one.
-/

namespace LockAudit

theorem except_map_eq_ok {ε α β : Type} {f : α → β} {x : Except ε α} {b : β}
    (h : x.map f = .ok b) : ∃ a, x = .ok a ∧ f a = b := by
  cases x with
  | error e => cases h
  | ok a =>
    cases h
    exact ⟨a, rfl, rfl⟩

theorem except_map_eq_error {ε α β : Type} {f : α → β} {x : Except ε α} {e : ε}
    (h : x.map f = .error e) : x = .error e := by
  cases x with
  | error e' => exact congrArg Except.error (Except.error.inj h)
  | ok a => cases h

theorem except_mapError_eq_ok {ε ε' α : Type} {f : ε → ε'} {x : Except ε α} {a : α}
    (h : x.mapError f = .ok a) : x = .ok a := by
  cases x with
  | error e => cases h
  | ok b =>
    cases h
    rfl

theorem except_ok_bind {ε α β : Type} (a : α) (f : α → Except ε β) : (Except.ok a >>= f) = f a :=
  rfl

theorem except_error_bind {ε α β : Type} (e : ε) (f : α → Except ε β) :
    (Except.error e >>= f) = .error e :=
  rfl

theorem except_bind_eq_ok {ε α β : Type} {x : Except ε α} {f : α → Except ε β} {b : β}
    (h : (x >>= f) = .ok b) : ∃ a, x = .ok a ∧ f a = .ok b := by
  cases x with
  | error e => cases h
  | ok a => exact ⟨a, rfl, h⟩

theorem except_mapError_eq_error {ε ε' α : Type} {f : ε → ε'} {x : Except ε α} {e : ε'}
    (h : x.mapError f = .error e) : ∃ e', x = .error e' ∧ f e' = e := by
  cases x with
  | error e' =>
    cases h
    exact ⟨e', rfl, rfl⟩
  | ok a => cases h

theorem except_bind_eq_error {ε α β : Type} {x : Except ε α} {f : α → Except ε β} {e : ε}
    (h : (x >>= f) = .error e) : x = .error e ∨ ∃ a, x = .ok a ∧ f a = .error e := by
  cases x with
  | error e' => exact .inl (congrArg Except.error (Except.error.inj h))
  | ok a => exact .inr ⟨a, rfl, h⟩

theorem except_bind_eq_error_iff {ε α β : Type} {x : Except ε α} {f : α → Except ε β} {e : ε} :
    (x >>= f) = .error e ↔ x = .error e ∨ ∃ a, x = .ok a ∧ f a = .error e := by
  constructor
  · exact except_bind_eq_error
  · rintro (rfl | ⟨a, rfl, h⟩)
    · rfl
    · exact h

theorem mapM_eq_error {ε α β : Type} {f : α → Except ε β} {xs : List α} {e : ε}
    (h : xs.mapM f = .error e) : ∃ x ∈ xs, f x = .error e := by
  induction xs with
  | nil => cases h
  | cons x xs ih =>
    rw [List.mapM_cons] at h
    rcases except_bind_eq_error h with hx | ⟨y, _, h⟩
    · exact ⟨x, List.mem_cons_self, hx⟩
    · rcases except_bind_eq_error h with hxs | ⟨ys, _, h⟩
      · obtain ⟨x', hx', he⟩ := ih hxs
        exact ⟨x', List.mem_cons_of_mem _ hx', he⟩
      · cases h

theorem mem_mapM_eq_ok {ε α β : Type} {f : α → Except ε β} {xs : List α} {ys : List β}
    (h : xs.mapM f = .ok ys) {y : β} (hy : y ∈ ys) : ∃ x ∈ xs, f x = .ok y := by
  induction xs generalizing ys with
  | nil =>
    cases h
    cases hy
  | cons x xs ih =>
    rw [List.mapM_cons] at h
    obtain ⟨z, hz, h⟩ := except_bind_eq_ok h
    obtain ⟨zs, hzs, h⟩ := except_bind_eq_ok h
    cases h
    rcases List.mem_cons.mp hy with rfl | hy
    · exact ⟨x, List.mem_cons_self, hz⟩
    · obtain ⟨x', hx', he⟩ := ih hzs hy
      exact ⟨x', List.mem_cons_of_mem _ hx', he⟩

theorem exists_mem_of_mapM_eq_ok {ε α β : Type} {f : α → Except ε β} {xs : List α} {ys : List β}
    (h : xs.mapM f = .ok ys) {x : α} (hx : x ∈ xs) : ∃ y ∈ ys, f x = .ok y := by
  induction xs generalizing ys with
  | nil => cases hx
  | cons x' xs ih =>
    rw [List.mapM_cons] at h
    obtain ⟨z, hz, h⟩ := except_bind_eq_ok h
    obtain ⟨zs, hzs, h⟩ := except_bind_eq_ok h
    cases h
    rcases List.mem_cons.mp hx with rfl | hx
    · exact ⟨z, List.mem_cons_self, hz⟩
    · obtain ⟨y, hy, he⟩ := ih hzs hx
      exact ⟨y, List.mem_cons_of_mem _ hy, he⟩

theorem exists_mapM_some {α β : Type} {f : α → Option β} {xs : List α}
    (h : ∀ x ∈ xs, ∃ y, f x = some y) : ∃ ys, xs.mapM f = some ys := by
  induction xs with
  | nil => exact ⟨[], rfl⟩
  | cons x xs ih =>
    obtain ⟨⟨y, hy⟩, hxs⟩ := List.forall_mem_cons.mp h
    obtain ⟨ys, hys⟩ := ih hxs
    exact ⟨y :: ys, by rw [List.mapM_cons, hy, hys]; rfl⟩

theorem forM_eq_ok {ε α : Type} {f : α → Except ε Unit} {xs : List α}
    (h : ∀ x ∈ xs, f x = .ok ()) : xs.forM f = .ok () := by
  induction xs with
  | nil => rfl
  | cons x xs ih =>
    obtain ⟨hx, hxs⟩ := List.forall_mem_cons.mp h
    change (f x >>= fun _ => xs.forM f) = .ok ()
    rw [hx]
    exact ih hxs

theorem forall_mem_of_forM {ε α : Type} {f : α → Except ε Unit} {xs : List α}
    (h : xs.forM f = .ok ()) : ∀ x ∈ xs, f x = .ok () := by
  induction xs with
  | nil => simp
  | cons x xs ih =>
    obtain ⟨⟨⟩, hx, h⟩ := except_bind_eq_ok h
    exact List.forall_mem_cons.mpr ⟨hx, ih h⟩

/-! ### The first that fails -/

def FirstFails {α : Type} (passes fails : α → Prop) (xs : List α) : Prop :=
  ∃ before x after, xs = before ++ x :: after ∧ (∀ y ∈ before, passes y) ∧ fails x

section FirstFails

variable {α : Type} {passes fails : α → Prop}

theorem not_firstFails_nil : ¬FirstFails passes fails [] := by
  rintro ⟨before, x, after, h, _⟩
  simp at h

theorem firstFails_cons {x : α} {xs : List α} :
    FirstFails passes fails (x :: xs) ↔ fails x ∨ passes x ∧ FirstFails passes fails xs := by
  constructor
  · rintro ⟨before, y, after, h, hbefore, hy⟩
    cases before with
    | nil =>
      cases h
      exact .inl hy
    | cons z before =>
      cases h
      obtain ⟨hz, hbefore⟩ := List.forall_mem_cons.mp hbefore
      exact .inr ⟨hz, before, y, after, rfl, hbefore, hy⟩
  · rintro (hx | ⟨hx, before, y, after, rfl, hbefore, hy⟩)
    · exact ⟨[], x, xs, rfl, by simp, hx⟩
    · exact ⟨x :: before, y, after, rfl, List.forall_mem_cons.mpr ⟨hx, hbefore⟩, hy⟩

theorem firstFails_append {xs ys : List α} : FirstFails passes fails (xs ++ ys) ↔
    FirstFails passes fails xs ∨ (∀ x ∈ xs, passes x) ∧ FirstFails passes fails ys := by
  induction xs with
  | nil => simp [not_firstFails_nil]
  | cons x xs ih => simp [firstFails_cons, ih, and_or_left, or_assoc, and_assoc]

end FirstFails

def Succeeds {ε α β : Type} (f : α → Except ε β) (x : α) : Prop :=
  ∃ b, f x = .ok b

section Succeeds

variable {ε α β : Type} {e : ε} {fails : α → Prop}

theorem mapM_eq_error_iff {f : α → Except ε β} (hf : ∀ x, f x = .error e ↔ fails x) {xs : List α} :
    xs.mapM f = .error e ↔ FirstFails (Succeeds f) fails xs := by
  induction xs with
  | nil => simp [not_firstFails_nil, pure, Except.pure]
  | cons x xs ih =>
    rw [List.mapM_cons, firstFails_cons, ← ih, except_bind_eq_error_iff, hf]
    refine or_congr_right ?_
    constructor
    · rintro ⟨b, hb, h⟩
      rcases except_bind_eq_error h with h | ⟨_, _, h⟩
      · exact ⟨⟨b, hb⟩, h⟩
      · cases h
    · rintro ⟨⟨b, hb⟩, h⟩
      exact ⟨b, hb, by rw [h, except_error_bind]⟩

theorem forM_eq_error_iff {check : α → Except ε Unit} (hcheck : ∀ x, check x = .error e ↔ fails x)
    {xs : List α} : xs.forM check = .error e ↔ FirstFails (Succeeds check) fails xs := by
  induction xs with
  | nil => simp [not_firstFails_nil, pure, Except.pure]
  | cons x xs ih =>
    rw [firstFails_cons, ← ih]
    change (check x >>= fun _ => xs.forM check) = .error e ↔ _
    rw [except_bind_eq_error_iff, hcheck]
    refine or_congr_right ?_
    constructor
    · rintro ⟨b, hb, h⟩
      exact ⟨⟨b, hb⟩, h⟩
    · rintro ⟨⟨b, hb⟩, h⟩
      exact ⟨b, hb, h⟩

/-- A fold fails with the error of the first element at which it cannot go on. -/
theorem foldlM_eq_error_iff {f : β → α → Except ε β} {xs : List α} {b : β} :
    xs.foldlM f b = .error e ↔
      ∃ before x after c, xs = before ++ x :: after ∧ before.foldlM f b = .ok c ∧ f c x = .error e := by
  induction xs generalizing b with
  | nil => simp [pure, Except.pure]
  | cons x xs ih =>
    rw [List.foldlM_cons, except_bind_eq_error_iff]
    constructor
    · rintro (h | ⟨c, hc, h⟩)
      · exact ⟨[], x, xs, b, rfl, rfl, h⟩
      · obtain ⟨before, y, after, d, rfl, hd, hy⟩ := ih.mp h
        exact ⟨x :: before, y, after, d, rfl, by rw [List.foldlM_cons, hc]; exact hd, hy⟩
    · rintro ⟨before, y, after, d, h, hd, hy⟩
      cases before with
      | nil =>
        cases h
        cases hd
        exact .inl hy
      | cons z before =>
        cases h
        obtain ⟨c, hc, hd⟩ := except_bind_eq_ok hd
        exact .inr ⟨c, hc, ih.mpr ⟨before, y, after, d, rfl, hd, hy⟩⟩

end Succeeds

end LockAudit
