import LockAudit.Program.Document
import LockAudit.Proofs.Except
import LockAudit.Proofs.Program.Consistency

/-! # Documents that are not programs

A document from which no program can be had is refused with a fault that is told to the user, unless reading
it or checking the program comes upon a stray value first: something without fields where fields are to be
taken, a location that is no text, a root that cannot be looked up or named, or a jump to something that is no
number. Values are met in the order of reading, and the first that is at fault decides.
-/

namespace LockAudit

def Json.IsObject (v : Json) : Prop :=
  ∃ fields, v = .obj fields

namespace Document

abbrev Fields := List (String × Json)

variable {fields : Fields} {name : String}

/-! ### Fields -/

theorem required_eq_ok_iff {raw v : Json} :
    required name raw = .ok v ↔ ∃ fields, raw = .obj fields ∧ Json.field? name fields = some v := by
  constructor
  · intro h
    unfold required at h
    split at h
    · rename_i fields
      split at h
      · rename_i w hw
        cases h
        exact ⟨fields, rfl, hw⟩
      · cases h
    · cases h
  · rintro ⟨fields, rfl, h⟩
    simp only [required, h]

theorem required_obj_iff {v : Json} :
    required name (.obj fields) = .ok v ↔ Json.field? name fields = some v := by
  simp [required_eq_ok_iff]

theorem required_obj {v : Json} (h : Json.field? name fields = some v) :
    required name (.obj fields) = .ok v :=
  required_obj_iff.mpr h

theorem isObject_of_required {raw v : Json} (h : required name raw = .ok v) : raw.IsObject := by
  obtain ⟨fields, rfl, _⟩ := required_eq_ok_iff.mp h
  exact ⟨fields, rfl⟩

theorem required_ne_notAnObject {raw : Json} : required name raw ≠ .error .notAnObject := by
  unfold required
  split
  · split <;> simp
  · simp

theorem elements_ne_notAnObject {raw : Json} : elements raw ≠ .error .notAnObject := by
  unfold elements
  split <;> simp

@[simp] theorem optional_obj : optional name (.obj fields) = .ok (Json.field? name fields) :=
  rfl

theorem optional_of_not_isObject {raw : Json} (h : ¬raw.IsObject) :
    optional name raw = .error .notAnObject := by
  unfold optional
  split
  · exact absurd ⟨_, rfl⟩ h
  · rfl

@[simp] theorem optionalOr_obj {absent : Json} :
    optionalOr name absent (.obj fields) = .ok ((Json.field? name fields).getD absent) :=
  rfl

def StrayLocation (fields : Fields) : Prop :=
  ∃ v, Json.field? "location" fields = some v ∧ v.truthy = true ∧ Name.isText v = false

theorem location_eq_notAnObject_iff :
    location (.obj fields) = .error .notAnObject ↔ StrayLocation fields := by
  simp only [location, optional_obj, except_ok_bind, StrayLocation]
  cases Json.field? "location" fields with
  | none => simp
  | some v =>
    by_cases htrue : v.truthy = true
    · cases v with
      | str s =>
        have hparse : (Location.parse s).mapError DocumentFault.location ≠ .error .notAnObject := by
          intro h
          obtain ⟨_, _, h⟩ := except_mapError_eq_error h
          cases h
        simp [htrue, hparse, Name.isText]
      | null | bool | int | real | arr | obj => simp [htrue, Name.isText]
    · simp [htrue]

theorem exists_lock (fields : Fields) : ∃ l, lock (.obj fields) = .ok l := by
  simp only [lock, optional_obj, optionalOr_obj]
  cases Json.field? "static" fields with
  | some name => exact ⟨_, rfl⟩
  | none =>
    cases Json.field? "field" fields with
    | some name => exact ⟨_, rfl⟩
    | none => exact ⟨_, rfl⟩

theorem lock_eq_error_iff {raw : Json} {f : DocumentFault} :
    lock raw = .error f ↔ ¬raw.IsObject ∧ f = .notAnObject := by
  by_cases hobj : raw.IsObject
  · obtain ⟨fields, rfl⟩ := hobj
    obtain ⟨l, hl⟩ := exists_lock fields
    simp [hl, Json.IsObject]
  · have hlock : lock raw = .error .notAnObject := by
      rw [lock, optionalOr, optional_of_not_isObject hobj]
      rfl
    simp [hlock, hobj, eq_comm]

theorem isObject_of_lock {raw : Json} {l : Lock} (h : lock raw = .ok l) : raw.IsObject := by
  refine Classical.byContradiction fun hobj => ?_
  rw [lock_eq_error_iff.mpr ⟨hobj, rfl⟩] at h
  cases h

theorem guardKind_ne_notAnObject : guardKind (.obj fields) ≠ .error .notAnObject := by
  intro h
  simp only [guardKind, optional_obj, except_ok_bind] at h
  split at h
  · cases h
  · split at h
    · split at h <;> cases h
    · cases h

/-! ### Statements and terminators -/

/-- A statement all of whose fields are fine as far as they are read, up to a lock without fields or a
location that is no text. -/
inductive StrayStatement : Json → Prop
  | lock {fields : Fields} {guard value : Json}
    (hop : Json.field? "op" fields = some (.str "acquire"))
    (hguard : Json.field? "guard" fields = some guard)
    (hlock : Json.field? "lock" fields = some value) (hvalue : ¬value.IsObject) :
    StrayStatement (.obj fields)
  | acquire {fields : Fields} {guard value : Json} {kind : GuardKind}
    (hop : Json.field? "op" fields = some (.str "acquire"))
    (hguard : Json.field? "guard" fields = some guard)
    (hlock : Json.field? "lock" fields = some value) (hvalue : value.IsObject)
    (hkind : guardKind (.obj fields) = .ok kind) (hlocation : StrayLocation fields) :
    StrayStatement (.obj fields)
  | release {fields : Fields} {guard : Json}
    (hop : Json.field? "op" fields = some (.str "release"))
    (hguard : Json.field? "guard" fields = some guard) (hlocation : StrayLocation fields) :
    StrayStatement (.obj fields)
  | scopeExit {fields : Fields} {value : Json} {names : List Json}
    (hop : Json.field? "op" fields = some (.str "scope_exit"))
    (hlocals : Json.field? "locals" fields = some value) (hnames : elements value = .ok names)
    (hlocation : StrayLocation fields) : StrayStatement (.obj fields)

theorem StrayStatement.fails {raw : Json} (h : StrayStatement raw) :
    statement raw = .error .notAnObject := by
  cases h with
  | lock hop hguard hlock hvalue =>
    simp only [statement, required_obj hop, required_obj hguard, required_obj hlock, except_ok_bind,
      lock_eq_error_iff.mpr ⟨hvalue, rfl⟩, except_error_bind]
  | acquire hop hguard hlock hvalue hkind hlocation =>
    obtain ⟨lockFields, rfl⟩ := hvalue
    obtain ⟨l, hl⟩ := exists_lock lockFields
    simp only [statement, required_obj hop, required_obj hguard, required_obj hlock, except_ok_bind, hl,
      hkind, location_eq_notAnObject_iff.mpr hlocation, except_error_bind]
  | release hop hguard hlocation =>
    simp only [statement, required_obj hop, required_obj hguard, except_ok_bind,
      location_eq_notAnObject_iff.mpr hlocation, except_error_bind]
  | scopeExit hop hlocals hnames hlocation =>
    simp only [statement, required_obj hop, required_obj hlocals, hnames, except_ok_bind,
      location_eq_notAnObject_iff.mpr hlocation, except_error_bind]

/-- Of what follows the required fields of a statement or terminator, only the location can be stray. -/
theorem strayLocation_of_fails {α : Type} {make : Location → Part α} (hmake : ∀ l, ∃ a, make l = .ok a)
    (h : (location (.obj fields) >>= make) = .error .notAnObject) : StrayLocation fields := by
  rcases except_bind_eq_error h with h | ⟨l, _, h⟩
  · exact location_eq_notAnObject_iff.mp h
  · obtain ⟨a, ha⟩ := hmake l
    rw [ha] at h
    cases h

theorem strayStatement_of_fails {raw : Json} (h : statement raw = .error .notAnObject) :
    StrayStatement raw := by
  unfold statement at h
  rcases except_bind_eq_error h with h | ⟨op, hop, h⟩
  · exact absurd h required_ne_notAnObject
  obtain ⟨fields, rfl⟩ := isObject_of_required hop
  rw [required_obj_iff] at hop
  split at h
  · rcases except_bind_eq_error h with h | ⟨guard, hguard, h⟩
    · exact absurd h required_ne_notAnObject
    rcases except_bind_eq_error h with h | ⟨value, hvalue, h⟩
    · exact absurd h required_ne_notAnObject
    rw [required_obj_iff] at hguard hvalue
    rcases except_bind_eq_error h with h | ⟨l, hl, h⟩
    · exact .lock hop hguard hvalue (lock_eq_error_iff.mp h).1
    rcases except_bind_eq_error h with h | ⟨kind, hkind, h⟩
    · exact absurd h guardKind_ne_notAnObject
    exact .acquire hop hguard hvalue (isObject_of_lock hl) hkind
      (strayLocation_of_fails (fun _ => ⟨_, rfl⟩) h)
  · rcases except_bind_eq_error h with h | ⟨guard, hguard, h⟩
    · exact absurd h required_ne_notAnObject
    exact .release hop (required_obj_iff.mp hguard) (strayLocation_of_fails (fun _ => ⟨_, rfl⟩) h)
  · rcases except_bind_eq_error h with h | ⟨value, hvalue, h⟩
    · exact absurd h required_ne_notAnObject
    rcases except_bind_eq_error h with h | ⟨names, hnames, h⟩
    · exact absurd h elements_ne_notAnObject
    exact .scopeExit hop (required_obj_iff.mp hvalue) hnames
      (strayLocation_of_fails (fun _ => ⟨_, rfl⟩) h)
  · cases h

theorem statement_eq_notAnObject_iff {raw : Json} :
    statement raw = .error .notAnObject ↔ StrayStatement raw :=
  ⟨strayStatement_of_fails, StrayStatement.fails⟩

inductive StrayTerminator : Json → Prop
  | call {fields : Fields} (hkind : Json.field? "kind" fields = some (.str "call"))
    (hform : (Json.field? "callee" fields).isSome ≠ (Json.field? "signature" fields).isSome)
    (hlocation : StrayLocation fields) : StrayTerminator (.obj fields)
  | ret {fields : Fields} (hkind : Json.field? "kind" fields = some (.str "return"))
    (hlocation : StrayLocation fields) : StrayTerminator (.obj fields)

theorem call_eq_notAnObject_iff {index : Nat} : call index (.obj fields) = .error .notAnObject ↔
    (Json.field? "callee" fields).isSome ≠ (Json.field? "signature" fields).isSome ∧
      StrayLocation fields := by
  simp only [call, optional_obj, optionalOr_obj, except_ok_bind]
  split
  · rename_i hform
    exact iff_of_false (fun h => nomatch h) (fun h => h.1 hform)
  · rename_i hform
    rw [and_iff_right hform]
    constructor
    · exact strayLocation_of_fails (fun _ => ⟨_, rfl⟩)
    · intro h
      rw [location_eq_notAnObject_iff.mpr h]
      rfl

/-- Reading a terminator meets a value without fields only where the terminator is stray. -/
theorem terminator_eq_notAnObject_iff {index : Nat} {t : Option Json} :
    terminator index t = .error .notAnObject ↔ ∃ raw, t = some raw ∧ StrayTerminator raw := by
  constructor
  · intro h
    unfold terminator at h
    split at h
    · cases h
    · cases h
    · rename_i raw _
      refine ⟨raw, rfl, ?_⟩
      rcases except_bind_eq_error h with h | ⟨kind, hkind, h⟩
      · exact absurd h required_ne_notAnObject
      obtain ⟨fields, rfl⟩ := isObject_of_required hkind
      rw [required_obj_iff] at hkind
      split at h
      · rcases except_bind_eq_error h with h | ⟨_, _, h⟩
        · exact absurd h required_ne_notAnObject
        rcases except_bind_eq_error h with h | ⟨_, _, h⟩
        · exact absurd h elements_ne_notAnObject
        · cases h
      · rcases except_bind_eq_error h with h | ⟨_, _, h⟩
        · obtain ⟨hform, hlocation⟩ := call_eq_notAnObject_iff.mp h
          exact .call hkind hform hlocation
        · cases h
      · exact .ret hkind (strayLocation_of_fails (fun _ => ⟨_, rfl⟩) h)
      · cases h
  · rintro ⟨raw, rfl, h⟩
    cases h with
    | call hkind hform hlocation =>
      simp only [terminator, required_obj hkind, except_ok_bind,
        call_eq_notAnObject_iff.mpr ⟨hform, hlocation⟩, except_error_bind]
    | ret hkind hlocation =>
      simp only [terminator, required_obj hkind, optionalOr_obj, except_ok_bind,
        location_eq_notAnObject_iff.mpr hlocation, except_error_bind]

/-! ### Blocks and instances -/

/-- A block that has no fields, or whose first statement at fault, or else whose terminator, is stray. -/
inductive StrayBlock : Json → Prop
  | notAnObject {raw : Json} (h : ¬raw.IsObject) : StrayBlock raw
  | statement {fields : Fields} {value : Json} {items : List Json}
    (hvalue : Json.field? "statements" fields = some value) (hitems : elements value = .ok items)
    (hfirst : FirstFails (Succeeds statement) StrayStatement items) : StrayBlock (.obj fields)
  | terminator {fields : Fields} {last : Json}
    (hread : ∀ value, Json.field? "statements" fields = some value →
      ∃ items, elements value = .ok items ∧ ∃ read, items.mapM Document.statement = .ok read)
    (hlast : Json.field? "terminator" fields = some last) (hstray : StrayTerminator last) :
    StrayBlock (.obj fields)

/-- Of what follows the statements of a block, only the terminator can be stray. -/
theorem strayTerminator_of_fails {index : Nat} {statements : List Statement}
    (h : (do return { statements, terminator := ← terminator index (Json.field? "terminator" fields) } :
      Part Block) = .error .notAnObject) :
    ∃ last, Json.field? "terminator" fields = some last ∧ StrayTerminator last := by
  rcases except_bind_eq_error h with h | ⟨_, _, h⟩
  · exact terminator_eq_notAnObject_iff.mp h
  · cases h

theorem strayBlock_of_fails {index : Nat}
    (h : block index (.obj fields) = .error .notAnObject) : StrayBlock (.obj fields) := by
  simp only [block, optional_obj, except_ok_bind] at h
  split at h
  · rename_i hnone
    obtain ⟨last, hlast, hstray⟩ := strayTerminator_of_fails h
    exact .terminator (by simp [hnone]) hlast hstray
  · rename_i value hvalue
    rcases except_bind_eq_error h with h | ⟨items, hitems, h⟩
    · exact absurd h elements_ne_notAnObject
    rcases except_bind_eq_error h with h | ⟨ss, hss, h⟩
    · exact .statement hvalue hitems
        ((mapM_eq_error_iff fun _ => statement_eq_notAnObject_iff).mp h)
    · obtain ⟨last, hlast, hstray⟩ := strayTerminator_of_fails h
      refine .terminator (fun value' hvalue' => ?_) hlast hstray
      cases hvalue.symm.trans hvalue'
      exact ⟨items, hitems, ss, hss⟩

theorem StrayBlock.fails {index : Nat} {raw : Json} (h : StrayBlock raw) :
    block index raw = .error .notAnObject := by
  cases h with
  | notAnObject hobj => rw [block, optional_of_not_isObject hobj, except_error_bind]
  | statement hvalue hitems hfirst =>
    have hmap := (mapM_eq_error_iff fun _ => statement_eq_notAnObject_iff).mpr hfirst
    simp only [block, optional_obj, except_ok_bind, hvalue, hitems, hmap, except_error_bind]
  | terminator hread hlast hstray =>
    have hterm : Document.terminator index (Json.field? "terminator" _) = .error .notAnObject :=
      terminator_eq_notAnObject_iff.mpr ⟨_, hlast, hstray⟩
    simp only [block, optional_obj, except_ok_bind]
    split
    · rw [hterm]
      rfl
    · rename_i value hvalue
      obtain ⟨items, hitems, ss, hss⟩ := hread value hvalue
      simp only [hitems, hss, hterm, except_ok_bind, except_error_bind]

theorem block_eq_notAnObject_iff {index : Nat} {raw : Json} :
    block index raw = .error .notAnObject ↔ StrayBlock raw := by
  refine ⟨fun h => ?_, StrayBlock.fails⟩
  by_cases hobj : raw.IsObject
  · obtain ⟨fields, rfl⟩ := hobj
    exact strayBlock_of_fails h
  · exact .notAnObject hobj

theorem blocks_eq_mapM {index : Nat} {items : List Json} :
    blocks index items = (items.zipIdx index).mapM fun x => block x.2 x.1 := by
  induction items generalizing index with
  | nil => rfl
  | cons raw items ih =>
    rw [blocks, List.zipIdx_cons, List.mapM_cons, ih]

inductive StrayInstance : Json → Prop
  | notAnObject {raw : Json} (h : ¬raw.IsObject) : StrayInstance raw
  | block {fields bodyFields : Fields} {value : Json} {items : List Json}
    (hbody : Json.field? "body" fields = some (.obj bodyFields))
    (hvalue : Json.field? "blocks" bodyFields = some value) (hitems : elements value = .ok items)
    (hfirst :
      FirstFails (Succeeds fun x => block x.2 x.1) (fun x => StrayBlock x.1) items.zipIdx) :
    StrayInstance (.obj fields)

/-- Blocks are read in order, so the first of them at fault decides. -/
theorem body_eq_notAnObject_iff {raw : Json} :
    body raw = .error .notAnObject ↔ StrayInstance raw := by
  constructor
  · intro h
    by_cases hobj : raw.IsObject
    · obtain ⟨fields, rfl⟩ := hobj
      simp only [body, optional_obj, except_ok_bind] at h
      split at h
      · cases h
      · cases h
      · rename_i hbody
        rcases except_bind_eq_error h with h | ⟨value, hvalue, h⟩
        · exact absurd h required_ne_notAnObject
        rcases except_bind_eq_error h with h | ⟨items, hitems, h⟩
        · exact absurd h elements_ne_notAnObject
        rcases except_bind_eq_error h with hblocks | ⟨_, _, h⟩
        · obtain ⟨bodyFields, rfl⟩ := isObject_of_required hvalue
          rw [blocks_eq_mapM, mapM_eq_error_iff fun _ => block_eq_notAnObject_iff] at hblocks
          exact .block hbody (required_obj_iff.mp hvalue) hitems hblocks
        · cases h
    · exact .notAnObject hobj
  · intro h
    cases h with
    | notAnObject hobj => rw [body, optional_of_not_isObject hobj, except_error_bind]
    | block hbody hvalue hitems hfirst =>
      have hmap := (mapM_eq_error_iff fun _ => block_eq_notAnObject_iff).mpr hfirst
      simp only [body, optional_obj, except_ok_bind, hbody, required_obj hvalue, hitems, blocks_eq_mapM,
        hmap, except_error_bind]

theorem functionInstance_eq_notAnObject_iff {raw : Json} :
    functionInstance raw = .error .notAnObject ↔ StrayInstance raw := by
  rw [← body_eq_notAnObject_iff]
  constructor
  · intro h
    rcases except_bind_eq_error h with h | ⟨_, _, h⟩
    · exact h
    rcases except_bind_eq_error h with h | ⟨id, hid, h⟩
    · exact absurd h required_ne_notAnObject
    -- The identifier has been read, so there are fields, and of the rest only the type arguments can fail.
    obtain ⟨fields, rfl⟩ := isObject_of_required hid
    simp only [optional_obj, optionalOr_obj, except_ok_bind] at h
    split at h
    · cases h
    · rcases except_bind_eq_error h with h | ⟨_, _, h⟩
      · exact absurd h elements_ne_notAnObject
      · cases h
  · intro h
    rw [functionInstance, h, except_error_bind]

/-! ### Documents -/

inductive StrayDocument : Json → Prop
  | mk {fields : Fields} {value raw : Json} {before after : List Json} {known : List Instance}
    (hvalue : Json.field? "instances" fields = some value)
    (hitems : elements value = .ok (before ++ raw :: after))
    (hbefore : instances true before = .ok known) (hstray : StrayInstance raw) :
    StrayDocument (.obj fields)

theorem addInstance_ne_notAnObject {unique : Bool} {known : List Instance} {i : Instance} :
    addInstance unique known i ≠ .error .notAnObject := by
  unfold addInstance
  split
  · simp
  · split
    · split <;> simp
    · simp

theorem instances_eq_notAnObject_iff {items : List Json} :
    instances true items = .error .notAnObject ↔ ∃ before raw after known,
      items = before ++ raw :: after ∧ instances true before = .ok known ∧ StrayInstance raw := by
  simp only [instances, if_true, foldlM_eq_error_iff]
  have hstep : ∀ (known : List Instance) raw,
      (functionInstance raw >>= fun i => addInstance true known i) = .error .notAnObject ↔
        StrayInstance raw := by
    intro known raw
    rw [except_bind_eq_error_iff, functionInstance_eq_notAnObject_iff]
    exact or_iff_left fun ⟨_, _, h⟩ => addInstance_ne_notAnObject h
  simp only [hstep]

/-- A document ends the analysis for a value without fields if its first instance at fault does. -/
theorem program_eq_notAnObject_iff {raw : Json} :
    program true raw = .error .notAnObject ↔ StrayDocument raw := by
  constructor
  · intro h
    rcases except_bind_eq_error h with h | ⟨value, hvalue, h⟩
    · exact absurd h required_ne_notAnObject
    rcases except_bind_eq_error h with h | ⟨items, hitems, h⟩
    · exact absurd h elements_ne_notAnObject
    obtain ⟨fields, rfl⟩ := isObject_of_required hvalue
    rcases except_bind_eq_error h with h | ⟨_, _, h⟩
    · obtain ⟨before, raw, after, known, rfl, hbefore, hstray⟩ := instances_eq_notAnObject_iff.mp h
      exact .mk (required_obj_iff.mp hvalue) hitems hbefore hstray
    · simp only [optional_obj, optionalOr_obj, flag, except_ok_bind, pure_bind] at h
      split at h
      · split at h <;> cases h
      · rcases except_bind_eq_error h with h | ⟨_, _, h⟩
        · exact absurd h elements_ne_notAnObject
        · split at h <;> cases h
  · rintro @⟨_, _, last, before, after, known, hvalue, hitems, hbefore, hstray⟩
    have hinstances :=
      instances_eq_notAnObject_iff.mpr ⟨before, last, after, known, rfl, hbefore, hstray⟩
    simp only [program, required_obj hvalue, hitems, hinstances, except_ok_bind, except_error_bind]

end Document

/-! ### Checks -/

theorem Target.within?_eq_none_iff (count : Nat) {t : Target} :
    within? count t = none ↔ Name.isNumber t = false := by
  simp [within?, Name.isNumber]

/-- Of the jumps in order, the first that does not lead to a block leads to something that is no number. -/
def StrayJump (count : Nat) : List Target → Prop :=
  FirstFails (fun t => Target.within? count t = some true) fun t => Name.isNumber t = false

theorem checkTargets_eq_strayTarget_iff {id : Name} {count block : Nat} {ts : List Target} :
    checkTargets id count block ts = .error .strayTarget ↔ StrayJump count ts := by
  induction ts with
  | nil => simp [checkTargets, StrayJump, not_firstFails_nil]
  | cons t ts ih =>
    rw [checkTargets, StrayJump, firstFails_cons, ← StrayJump, ← ih,
      ← Target.within?_eq_none_iff count]
    cases ht : Target.within? count t with
    | none => simp
    | some inside => cases inside <;> simp

theorem checkBlocks_eq_strayTarget_iff {id : Name} {count index : Nat} {bs : List Block} :
    checkBlocks id count index bs = .error .strayTarget ↔
      StrayJump count (bs.flatMap fun b => b.terminator.successors) := by
  induction bs generalizing index with
  | nil => simp [checkBlocks, StrayJump, not_firstFails_nil]
  | cons b bs ih =>
    rw [checkBlocks, List.flatMap_cons, StrayJump, firstFails_append, ← StrayJump,
      except_bind_eq_error_iff, checkTargets_eq_strayTarget_iff]
    refine or_congr_right ⟨?_, ?_⟩
    · rintro ⟨⟨⟩, hb, h⟩
      exact ⟨inside_of_checkTargets hb, ih.mp h⟩
    · rintro ⟨hb, h⟩
      exact ⟨(), checkTargets_eq_ok hb, ih.mpr h⟩

theorem checkTargets_ne_strayRoot {id : Name} {count block : Nat} {ts : List Target} :
    checkTargets id count block ts ≠ .error .strayRoot := by
  induction ts with
  | nil => simp [checkTargets]
  | cons t ts ih =>
    rw [checkTargets]
    split <;> simp [ih]

theorem checkBlocks_ne_strayRoot {id : Name} {count index : Nat} {bs : List Block} :
    checkBlocks id count index bs ≠ .error .strayRoot := by
  induction bs generalizing index with
  | nil => simp [checkBlocks]
  | cons b bs ih =>
    rw [checkBlocks, ne_eq, except_bind_eq_error_iff]
    rintro (h | ⟨_, _, h⟩)
    · exact checkTargets_ne_strayRoot h
    · exact ih h

namespace Instance

variable {i : Instance}

/-- The first jump of the body that does not lead to one of its blocks leads to something that is no
number. -/
def StrayBody (i : Instance) : Prop :=
  ∃ body, i.body = some body ∧
    StrayJump body.blocks.length (body.blocks.flatMap fun b => b.terminator.successors)

theorem check_eq_strayTarget_iff : i.check = .error .strayTarget ↔ i.StrayBody := by
  unfold check StrayBody
  split
  · rename_i hbody
    simp [hbody]
  · rename_i body hbody
    simp only [hbody, Option.some.injEq, exists_eq_left']
    split
    · rename_i hempty
      simp [List.isEmpty_iff.mp hempty, StrayJump, not_firstFails_nil]
    · exact checkBlocks_eq_strayTarget_iff

theorem check_ne_strayRoot : i.check ≠ .error .strayRoot := by
  unfold check
  split
  · simp
  · split
    · simp
    · exact checkBlocks_ne_strayRoot

end Instance

theorem Name.texts?_eq_none_iff {names : List Name} :
    texts? names = none ↔ ∃ n ∈ names, n.isText = false := by
  induction names with
  | nil => simp [texts?]
  | cons n names ih =>
    have hsome : (∃ m ∈ n :: names, m.isText = false) ↔ n.isText = false ∨ texts? names = none := by
      simp [ih]
    rw [hsome, texts?, List.mapM_cons, ← texts?]
    cases n with
    | str s => cases texts? names <;> simp [isText]
    | null | bool | int | real | arr | obj => simp [isText]

namespace Program

variable {p : Program}

def StrayRoots (p : Program) : Prop :=
  (∃ r ∈ p.roots, r.isKey = false) ∨ ∃ r ∈ p.missingRoots, r.isText = false

theorem checkRoots_eq_strayRoot_iff : p.checkRoots = .error .strayRoot ↔ p.StrayRoots := by
  unfold checkRoots StrayRoots
  rw [← Name.texts?_eq_none_iff]
  split
  · rename_i hkeys
    simpa using Or.inl (by simpa using hkeys)
  · rename_i hkeys
    have hkeys : ¬∃ r ∈ p.roots, r.isKey = false := by simpa using hkeys
    rw [or_iff_right hkeys]
    split
    · rename_i hnone
      simp [List.isEmpty_iff.mp hnone, Name.texts?]
    · split <;> simp [*]

theorem checkRoots_ne_strayTarget : p.checkRoots ≠ .error .strayTarget := by
  unfold checkRoots
  split
  · simp
  · split
    · simp
    · split <;> simp

def StrayJumps (p : Program) : Prop :=
  p.checkRoots = .ok () ∧ FirstFails (Succeeds Instance.check) Instance.StrayBody p.instances

theorem check_eq_strayRoot_iff : p.check = .error .strayRoot ↔ p.StrayRoots := by
  rw [check, except_bind_eq_error_iff, checkRoots_eq_strayRoot_iff]
  refine or_iff_left ?_
  rintro ⟨⟨⟩, _, h⟩
  obtain ⟨_, i, _, _, _, hi⟩ := (forM_eq_error_iff fun _ => Iff.rfl).mp h
  exact Instance.check_ne_strayRoot hi

theorem check_eq_strayTarget_iff : p.check = .error .strayTarget ↔ p.StrayJumps := by
  rw [check, except_bind_eq_error_iff, or_iff_right checkRoots_ne_strayTarget]
  simp only [forM_eq_error_iff fun _ => Instance.check_eq_strayTarget_iff]
  constructor
  · rintro ⟨⟨⟩, h⟩
    exact h
  · exact fun h => ⟨(), h⟩

end Program

/-! ### Programs -/

theorem Program.ofDocument_of_program {raw : Json} {p : Program}
    (h : Document.program true raw = .ok p) :
    ofDocument raw = (do p.check.mapError .inconsistent; return p) := by
  rw [ofDocument, h]
  rfl

theorem Program.ofDocument_eq_ok_iff {raw : Json} {p : Program} :
    ofDocument raw = .ok p ↔ Document.program true raw = .ok p ∧ p.check = .ok () := by
  constructor
  · intro h
    obtain ⟨q, hq, h⟩ := except_bind_eq_ok h
    obtain ⟨⟨⟩, hcheck, h⟩ := except_bind_eq_ok h
    cases h
    exact ⟨except_mapError_eq_ok hq, except_mapError_eq_ok hcheck⟩
  · rintro ⟨hread, hcheck⟩
    rw [ofDocument_of_program hread, hcheck]
    rfl

theorem Program.ofDocument_eq_malformed_iff {raw : Json} {f : DocumentFault} :
    ofDocument raw = .error (.malformed f) ↔ Document.program true raw = .error f := by
  constructor
  · intro h
    rcases except_bind_eq_error h with h | ⟨p, hp, h⟩
    · obtain ⟨f', hf, h⟩ := except_mapError_eq_error h
      cases h
      exact hf
    · rcases except_bind_eq_error h with h | ⟨_, _, h⟩
      · obtain ⟨_, _, h⟩ := except_mapError_eq_error h
        cases h
      · cases h
  · intro h
    rw [ofDocument, h]
    rfl

theorem Program.ofDocument_eq_inconsistent_iff {raw : Json} {c : Inconsistency} :
    ofDocument raw = .error (.inconsistent c) ↔
      ∃ p, Document.program true raw = .ok p ∧ p.check = .error c := by
  constructor
  · intro h
    rcases except_bind_eq_error h with h | ⟨p, hp, h⟩
    · obtain ⟨_, _, h⟩ := except_mapError_eq_error h
      cases h
    · rcases except_bind_eq_error h with h | ⟨_, _, h⟩
      · obtain ⟨c', hc, h⟩ := except_mapError_eq_error h
        cases h
        exact ⟨p, except_mapError_eq_ok hp, hc⟩
      · cases h
  · rintro ⟨p, hread, hcheck⟩
    rw [ofDocument_of_program hread, hcheck]
    rfl

theorem ProgramError.isReported_eq_false_iff {e : ProgramError} : e.isReported = false ↔
    e = .malformed .notAnObject ∨ e = .inconsistent .strayRoot ∨ e = .inconsistent .strayTarget := by
  cases e with
  | malformed f => cases f <;> simp [isReported]
  | inconsistent c => cases c <;> simp [isReported, Inconsistency.isReported]

/-- A document gives a program that passes the check, or it is refused. The fault is told to the user unless
the document is stray, or describes a program with stray roots or stray jumps. -/
theorem document_failures (raw : Json) :
    (∀ p, Program.ofDocument raw = .ok p ↔ Document.program true raw = .ok p ∧ p.check = .ok ()) ∧
    (Program.ofDocument raw = .error (.malformed .notAnObject) ↔ Document.StrayDocument raw) ∧
    (Program.ofDocument raw = .error (.inconsistent .strayRoot) ↔
      ∃ p, Document.program true raw = .ok p ∧ p.StrayRoots) ∧
    (Program.ofDocument raw = .error (.inconsistent .strayTarget) ↔
      ∃ p, Document.program true raw = .ok p ∧ p.StrayJumps) ∧
    ((∃ e, Program.ofDocument raw = .error e ∧ e.isReported = false) ↔
      Document.StrayDocument raw ∨
        ∃ p, Document.program true raw = .ok p ∧ (p.StrayRoots ∨ p.StrayJumps)) := by
  have hobject : Program.ofDocument raw = .error (.malformed .notAnObject) ↔
      Document.StrayDocument raw := by
    rw [Program.ofDocument_eq_malformed_iff, Document.program_eq_notAnObject_iff]
  have hroots : Program.ofDocument raw = .error (.inconsistent .strayRoot) ↔
      ∃ p, Document.program true raw = .ok p ∧ p.StrayRoots := by
    simp only [Program.ofDocument_eq_inconsistent_iff, Program.check_eq_strayRoot_iff]
  have hjumps : Program.ofDocument raw = .error (.inconsistent .strayTarget) ↔
      ∃ p, Document.program true raw = .ok p ∧ p.StrayJumps := by
    simp only [Program.ofDocument_eq_inconsistent_iff, Program.check_eq_strayTarget_iff]
  refine ⟨fun p => Program.ofDocument_eq_ok_iff, hobject, hroots, hjumps, ?_⟩
  simp only [ProgramError.isReported_eq_false_iff, and_or_left, exists_or, exists_eq_right, hobject,
    hroots, hjumps]

/-- An instance without fields, a location that is a number, a jump to a text and a missing root that is a
number are not told to the user. -/
theorem stray_values_not_reported :
    (∃ e, Program.ofDocument (.obj [("instances", .arr [.int 1])]) = .error e ∧
      e.isReported = false) ∧
    (∃ e, Program.ofDocument (.obj [("instances", .arr [.obj [("id", .str "f"),
        ("body", .obj [("blocks", .arr [.obj [("terminator",
          .obj [("kind", .str "return"), ("location", .int 5)])]])])]])]) = .error e ∧
      e.isReported = false) ∧
    (∃ e, Program.ofDocument (.obj [("instances", .arr [.obj [("id", .str "f"),
        ("body", .obj [("blocks", .arr [.obj [("terminator",
          .obj [("kind", .str "goto"), ("targets", .arr [.str "0"])])]])])]]),
        ("roots", .arr [.str "f"])]) = .error e ∧
      e.isReported = false) ∧
    ∃ e, Program.ofDocument (.obj [("instances", .arr []), ("roots", .arr [.int 1])]) = .error e ∧
      e.isReported = false :=
  ⟨⟨.malformed .notAnObject, rfl, rfl⟩, ⟨.malformed .notAnObject, rfl, rfl⟩,
    ⟨.inconsistent .strayTarget, rfl, rfl⟩, ⟨.inconsistent .strayRoot, rfl, rfl⟩⟩

end LockAudit
