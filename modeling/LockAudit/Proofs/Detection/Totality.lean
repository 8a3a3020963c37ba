import LockAudit.Proofs.Detection.DoubleLocks
import LockAudit.Proofs.Detection.LockOrder
import LockAudit.Proofs.Detection.Spread

/-! # Detection on paths of any events

The releases of a path may name anything: nothing, a position before or after the path, a release, or an
acquisition that has ended. Detection answers all the same. It may know what is held by positions alone,
since these are always positions of acquisitions that it has passed; each order edge that it looks up has
witnesses, and each witness a path; and the locks whose aliasing it compares are of one class.
-/

namespace LockAudit.Detection

/-! ### Holdings known by their positions -/

def holdPosition (held : List Nat) (index : Nat) (e : Event) : List Nat :=
  match e.op with
  | .acquire => held ++ [index]
  | .release => held.eraseP fun i => e.acquired == some (Int.ofNat i)

def heldFrom (index : Nat) (held : List Nat) : List Event → List Nat
  | [] => held
  | e :: es => heldFrom (index + 1) (holdPosition held index e) es

def heldPositions (events : List Event) : List Nat :=
  heldFrom 0 [] events

/-- The nestings of an event with the held positions before it, each of which is looked up on the path. -/
def lookUpAt (p : LockPath) (held : List Nat) (index : Nat) (e : Event) : Option (List Nesting) :=
  match e.op with
  | .acquire => held.mapM fun i => p.events[i]?.map fun first => ⟨⟨i, first⟩, ⟨index, e⟩⟩
  | .release => some []

def lookUpFrom (p : LockPath) (index : Nat) (held : List Nat) : List Event → Option (List Nesting)
  | [] => some []
  | e :: es =>
    (lookUpAt p held index e).bind fun here =>
      (lookUpFrom p (index + 1) (holdPosition held index e) es).map (here ++ ·)

def lookUpNestings (p : LockPath) : Option (List Nesting) :=
  lookUpFrom p 0 [] p.events

theorem map_index_replayStep (held : List Holding) (index : Nat) (e : Event) :
    (replayStep held index e).map Holding.index =
      holdPosition (held.map Holding.index) index e := by
  unfold replayStep holdPosition
  cases e.op with
  | acquire => simp
  | release =>
    cases hacquired : e.acquired with
    | none =>
      simp only [endHolding]
      exact (List.eraseP_of_forall_not fun _ _ => by simp).symm
    | some i =>
      have hnames : (fun j : Nat => some i == some (Int.ofNat j)) = fun j => Int.ofNat j == i := by
        funext j
        rw [Bool.eq_iff_iff, beq_iff_eq, beq_iff_eq, Option.some.injEq]
        exact eq_comm
      simp only [endHolding, hnames]
      rw [List.eraseP_map]
      rfl

theorem heldFrom_map_index (index : Nat) (held : List Holding) (es : List Event) :
    heldFrom index (held.map Holding.index) es = (replayFrom index held es).map Holding.index := by
  induction es generalizing index held with
  | nil => rfl
  | cons e es ih => rw [heldFrom, replayFrom, ← map_index_replayStep, ih]

theorem heldPositions_eq (es : List Event) : heldPositions es = (replay es).map Holding.index :=
  heldFrom_map_index 0 [] es

theorem lookUpAt_eq {p : LockPath} {held : List Holding}
    (h : ∀ x ∈ held, p.events[x.index]? = some x.event) (index : Nat) (e : Event) :
    lookUpAt p (held.map Holding.index) index e = some (nestingsAt held index e) := by
  unfold lookUpAt nestingsAt
  cases e.op with
  | release => rfl
  | acquire =>
    induction held with
    | nil => rfl
    | cons x held ih =>
      obtain ⟨hx, hrest⟩ := List.forall_mem_cons.mp h
      have htail := ih hrest
      dsimp only at htail ⊢
      rw [List.map_cons, List.mapM_cons, htail, hx]
      rfl

/-- Looking the held positions up on the path gives the nestings of the replay, and never fails. -/
theorem lookUpFrom_eq {p : LockPath} {before es : List Event} (h : p.events = before ++ es) :
    lookUpFrom p before.length ((replay before).map Holding.index) es =
      some (nestingsFrom before.length (replay before) es) := by
  -- the held positions are those of the replay of the events before, so the beginning varies
  induction es generalizing before with
  | nil => rfl
  | cons e es ih =>
    have hfound : ∀ x ∈ replay before, p.events[x.index]? = some x.event := by
      intro x hx
      obtain ⟨hget, _, _⟩ := (mem_replay before x).mp hx
      rw [h, List.getElem?_append_left (List.getElem?_eq_some_iff.mp hget).1, hget]
    have hlater : lookUpFrom p (before.length + 1)
        (holdPosition ((replay before).map Holding.index) before.length e) es =
        some (nestingsFrom (before.length + 1) (replayStep (replay before) before.length e) es) := by
      have hnext := @ih (before ++ [e]) (by rw [h, List.append_assoc, List.singleton_append])
      rwa [replay_concat, map_index_replayStep, List.length_append, List.length_singleton] at hnext
    rw [lookUpFrom, lookUpAt_eq hfound, hlater]
    rfl

theorem lookUpNestings_eq (p : LockPath) : lookUpNestings p = some (nestings p) :=
  @lookUpFrom_eq p [] p.events rfl

structure HeldBefore (p : LockPath) (k : Nat) (held : List Nat) : Prop where
  ascending : held.Pairwise (· < ·)
  before : ∀ i ∈ held, i < k
  acquires : ∀ i ∈ held, ∃ e, p.events[i]? = some e ∧ e.op = .acquire

theorem heldBefore (p : LockPath) (k : Nat) : HeldBefore p k (heldPositions (p.events.take k)) := by
  rw [heldPositions_eq]
  have hbefore : ∀ x ∈ replay (p.events.take k), x.index < k := fun x hx =>
    Nat.lt_of_lt_of_le ((replay_ascending _).2 x hx) (List.length_take_le _ _)
  refine ⟨(replay_ascending _).1, ?_, ?_⟩
  · intro i hi
    obtain ⟨x, hx, rfl⟩ := List.mem_map.mp hi
    exact hbefore x hx
  · intro i hi
    obtain ⟨x, hx, rfl⟩ := List.mem_map.mp hi
    obtain ⟨hget, hop, _⟩ := (mem_replay _ x).mp hx
    rw [List.getElem?_take_of_lt (hbefore x hx)] at hget
    exact ⟨x.event, hget, hop⟩

/-! ### Witnesses that are compared -/

variable {ws : List Witness}

def around (ws : List Witness) : List (Witness × Witness) :=
  ws.zip (ws.drop 1 ++ ws.take 1)

theorem waitsAround_eq (head w : Witness) (rest : List Witness) :
    waitsAround head w rest = ((w :: rest).zip (rest ++ [head])).all fun p => surelyWaits p.1 p.2 := by
  induction rest generalizing w with
  | nil => simp [waitsAround]
  | cons next rest ih => rw [waitsAround, ih, List.cons_append, List.zip_cons_cons, List.all_cons]

theorem conflictPossibility_eq (ws : List Witness) :
    conflictPossibility ws =
      if (around ws).all fun p => surelyWaits p.1 p.2 then .probably else .possibly := by
  cases ws with
  | nil => rfl
  | cons w rest =>
    rw [conflictPossibility, waitsAround_eq]
    rfl

/-- The grade rests on comparing the lock that each witness waits for with the one that the next witness
holds. These are always of one class, so that there is a tier. -/
structure ComparesWithinClasses (ws : List Witness) : Prop where
  grade : conflictPossibility ws =
    if (around ws).all fun p => surelyWaits p.1 p.2 then .probably else .possibly
  oneClass : ∀ p ∈ around ws, p.2.first.aliasClass = p.1.second.aliasClass
  compares : ∀ p ∈ around ws, ∀ same, ∃ tier, p.2.first.lock.tier? p.1.second.lock same = some tier

theorem comparesWithinClasses_of_edges
    (h : ws.map (fun w => w.edge.2) = (ws.drop 1 ++ ws.take 1).map fun w => w.edge.1) :
    ComparesWithinClasses ws := by
  have hlinked : List.Forall₂ (fun v w : Witness => v.edge.2 = w.edge.1) ws
      (ws.drop 1 ++ ws.take 1) := by
    rw [← List.forall₂_eq_eq_eq] at h
    exact List.forall₂_map_right_iff.mp (List.forall₂_map_left_iff.mp h)
  have hclass : ∀ p ∈ around ws, p.2.first.aliasClass = p.1.second.aliasClass :=
    fun p hp => (List.forall₂_zip hlinked hp).symm
  exact ⟨conflictPossibility_eq ws, hclass, fun p hp same => exists_tier (hclass p hp) same⟩

theorem map_snd_cycleEdges (c : List AliasClass) :
    (cycleEdges c).map Prod.snd = c.drop 1 ++ c.take 1 := by
  refine List.map_snd_zip ?_
  simp only [List.length_append, List.length_drop, List.length_take]
  omega

theorem inversions_compare {i : Inversion} (h : i ∈ inversions ws) :
    ComparesWithinClasses [i.forward, i.backward] := by
  obtain ⟨_, _, hedge, _, _⟩ := mem_inversions.mp h
  refine comparesWithinClasses_of_edges ?_
  simp [hedge]

theorem spreadCycles_compare {bound : Nat} {c : List AliasClass × List Witness}
    (h : c ∈ spreadCycles ws bound) : ComparesWithinClasses c.2 := by
  obtain ⟨hchosen, _, _⟩ := spreadCycles_chosen h
  have hedges : c.2.map Witness.edge = cycleEdges c.1 := by
    rw [← List.forall₂_eq_eq_eq, List.forall₂_map_left_iff]
    exact hchosen.imp fun _ _ hw => hw.2
  refine comparesWithinClasses_of_edges ?_
  calc c.2.map (fun w => w.edge.2)
    _ = (cycleEdges c.1).map Prod.snd := by rw [← hedges, List.map_map]; rfl
    _ = c.1.drop 1 ++ c.1.take 1 := map_snd_cycleEdges c.1
    _ = (c.2.drop 1 ++ c.2.take 1).map fun w => w.edge.1 := by
      have hfirsts : c.2.map (fun w => w.edge.1) = c.1 := by
        rw [← map_fst_cycleEdges c.1, ← hedges, List.map_map]
        rfl
      rw [List.map_append, List.map_drop, List.map_take, hfirsts]

/-! ### Detection -/

/-- Detection answers, whatever the events of the paths are. What is held at any point are ascending
positions of acquisitions before it, and looking them up yields the nestings. Each witness has its path,
each order edge a witness, and each cycle its edges. Only locks of one class are compared. -/
theorem detection_total (options : Options) (paths : List LockPath) :
    (Textual paths → ∃ found, detect options paths = .ok found) ∧
    (∀ p ∈ prepare paths,
      (∀ k, HeldBefore p k (heldPositions (p.events.take k))) ∧ lookUpNestings p = some (nestings p)) ∧
    (∀ w ∈ witnesses (prepare paths), ∃ p, (prepare paths)[w.path]? = some p ∧
      w.degraded = p.degraded ∧ w.nesting ∈ nestings p) ∧
    (∀ e ∈ orderEdges (witnesses (prepare paths)),
      (witnessIndex (witnesses (prepare paths))).withKey e ≠ []) ∧
    (∀ c ∈ cycles (orderEdges (witnesses (prepare paths))) options.maxCycleLength,
      ∀ e ∈ cycleEdges c, e ∈ orderEdges (witnesses (prepare paths))) ∧
    (∀ i ∈ inversions (witnesses (prepare paths)), ComparesWithinClasses [i.forward, i.backward]) ∧
    ∀ c ∈ (evidence options paths).cycles, ComparesWithinClasses c.2 := by
  refine ⟨fun h => h.detect options, fun p _ => ⟨heldBefore p, lookUpNestings_eq p⟩, ?_, ?_, ?_, ?_, ?_⟩
  · intro w hw
    obtain ⟨p, hp⟩ := mem_witnesses.mp hw
    exact ⟨p, hp.path, hp.degraded, mem_nestings_iff.mpr hp.nesting.on⟩
  · intro e he hnone
    rw [orderEdges, mem_distinct] at he
    obtain ⟨w, hw, rfl⟩ := List.mem_map.mp he
    rw [withKey_witnessIndex, List.filter_eq_nil_iff] at hnone
    simpa using hnone w hw
  · intro c hc
    obtain ⟨d, hd, _, rfl⟩ := mem_cycles.mp hc
    exact ((isCycle_of_mem_simpleCycles hd).1.of_isRotated (fromSmallest_isRotated d)).ordered
  · exact fun i hi => inversions_compare hi
  · intro c hc
    unfold evidence at hc
    dsimp only at hc
    split at hc
    · exact spreadCycles_compare hc
    · cases hc

/-- Two static locks are acquired, the first a second time. The releases name nothing, a position before the
path, one after it, a release, and twice the first acquisition. -/
def tangled (first second : String) : LockPath :=
  let event (op : LockOp) (name : String) (line : Int) (acquired : Option Int) : Event :=
    { op, kind := .mutex, lock := { site := .static, name := .str name },
      location := ⟨"main.rs", line, 1⟩, inst := .str first, guard := .str name, chain := [.str first],
      acquired, frame := 0 }
  { root := .str first
    events := [event .release first 1 none, event .acquire first 2 (some 7),
      event .release first 3 (some (-1)), event .release first 4 (some 99), event .release first 5 (some 0),
      event .acquire second 6 none, event .release first 7 (some 1), event .release first 8 (some 1),
      event .acquire first 9 none] }

/-- Releases that name nothing or no position of the path do no harm. -/
theorem detection_total_tangled :
    (∃ found, detect {} [tangled "A" "B", tangled "B" "A"] = .ok found) ∧
    heldPositions (tangled "A" "B").events = [5, 8] ∧
    ∃ p ∈ prepare [tangled "A" "B", tangled "B" "A"],
      HeldBefore p 9 (heldPositions (p.events.take 9)) ∧ lookUpNestings p = some (nestings p) := by
  have htextual : Textual [tangled "A" "B", tangled "B" "A"] := by
    intro p hp
    rcases List.mem_pair.mp hp with rfl | rfl <;> decide
  obtain ⟨hanswers, hlookups, _⟩ := detection_total {} [tangled "A" "B", tangled "B" "A"]
  obtain ⟨p, hp, _⟩ := exists_prepared (List.mem_cons_self (a := tangled "A" "B") (l := [tangled "B" "A"]))
  exact ⟨hanswers htextual, by decide, p, hp, (hlookups p hp).1 9, (hlookups p hp).2⟩

end LockAudit.Detection
