import LockAudit.Proofs.Detection.Occurrence

/-! # The lock order of paths

An edge of the lock order is an edge because some path acquires the second class while it holds the first,
and the witnesses of the edge are the first such nestings, one for each path that has any. Witnesses tell
paths apart by their numbers, which are equal only for paths that are equal up to spelling.
-/

namespace LockAudit.Detection

variable {paths : List LockPath} {p q : LockPath} {v w : Witness}

/-- The path acquires a lock of the second class while it holds one of the first. -/
def Orders (p : LockPath) (e : AliasClass × AliasClass) : Prop :=
  e.1 ≠ e.2 ∧ ∃ n : Nesting, n.On p ∧ n.firstClass = e.1 ∧ n.secondClass = e.2

theorem Nesting.IsWitness.orders {n : Nesting} (h : n.IsWitness p) :
    Orders p (n.firstClass, n.secondClass) :=
  ⟨h.differ, n, h.on, rfl, rfl⟩

/-- Of the nestings that order two classes one is the first. -/
theorem Orders.exists_isWitness {e : AliasClass × AliasClass} (h : Orders p e) :
    ∃ n : Nesting, n.IsWitness p ∧ (n.firstClass, n.secondClass) = e := by
  obtain ⟨hne, n, hn, hfirst, hsecond⟩ := h
  have hmem : n ∈ orderings p := mem_orderings.mpr ⟨hn, by rwa [hfirst, hsecond]⟩
  have hkey : e ∈ (distinctOn (fun n => (n.firstClass, n.secondClass)) (orderings p)).map
      fun n => (n.firstClass, n.secondClass) := by
    rw [map_distinctOn, mem_distinct]
    exact List.mem_map.mpr ⟨n, hmem, Prod.ext hfirst hsecond⟩
  obtain ⟨m, hm, he⟩ := List.mem_map.mp hkey
  exact ⟨m, mem_firsts.mp hm, he⟩

structure Witness.Of (paths : List LockPath) (w : Witness) (p : LockPath) : Prop where
  path : (prepare paths)[w.path]? = some p
  degraded : w.degraded = p.degraded
  nesting : w.nesting.IsWitness p

theorem mem_witnesses : w ∈ witnesses (prepare paths) ↔ ∃ p, w.Of paths p := by
  simp only [witnesses, List.mem_flatMap, List.mem_zipIdx_iff_getElem?, mem_pathWitnesses, Prod.exists]
  constructor
  · rintro ⟨p, i, hp, rfl, hd, hn⟩
    exact ⟨p, hp, hd, hn⟩
  · rintro ⟨p, h⟩
    exact ⟨p, w.path, h.path, rfl, h.degraded, h.nesting⟩

theorem Witness.Of.mem (h : w.Of paths p) : p ∈ paths :=
  mem_prepare (List.mem_of_getElem? h.path)

theorem Witness.Of.path_eq_iff (hw : w.Of paths p) (hv : v.Of paths q) :
    w.path = v.path ↔ p.canonical = q.canonical := by
  have hget : ∀ {i : Nat} {r : LockPath}, (prepare paths)[i]? = some r →
      ((prepare paths).map LockPath.canonical)[i]? = some r.canonical := by
    intro i r hr
    rw [List.getElem?_map, hr, Option.map_some]
  constructor
  · intro h
    have hpq : some p = some q := by rw [← hw.path, ← hv.path, h]
    rw [Option.some.inj hpq]
  · intro h
    have hbound := (List.getElem?_eq_some_iff.mp (hget hw.path)).1
    refine (List.getElem?_inj hbound (prepare_nodup paths)).mp ?_
    rw [hget hw.path, hget hv.path, h]

/-- A first nesting on a given path has its like among the witnesses. -/
theorem exists_witness {n : Nesting} (hp : p ∈ paths) (hn : n.IsWitness p) :
    ∃ w q, Witness.Of paths w q ∧ q.canonical = p.canonical ∧ w.nesting.Alike n := by
  obtain ⟨q, hq, hqp⟩ := exists_prepared hp
  obtain ⟨m, hm, hmn⟩ := hn.exists_alike hqp
  obtain ⟨i, hi⟩ := List.mem_iff_getElem?.mp hq
  exact ⟨⟨i, q.degraded, m⟩, q, ⟨hi, rfl, hm⟩, hqp, hmn⟩

/-- The edges of the order are those that the given paths order. -/
theorem mem_orderEdges {e : AliasClass × AliasClass} :
    e ∈ orderEdges (witnesses (prepare paths)) ↔ ∃ p ∈ paths, Orders p e := by
  rw [orderEdges, mem_distinct, List.mem_map]
  constructor
  · rintro ⟨w, hw, rfl⟩
    obtain ⟨p, hp⟩ := mem_witnesses.mp hw
    exact ⟨p, hp.mem, hp.nesting.orders⟩
  · rintro ⟨p, hp, horders⟩
    obtain ⟨n, hn, rfl⟩ := horders.exists_isWitness
    obtain ⟨w, q, hw, _, halike⟩ := exists_witness hp hn
    exact ⟨w, mem_witnesses.mpr ⟨q, hw⟩, Prod.ext halike.firstClass halike.secondClass⟩

/-! ### A path with one nesting -/

def acquiring (first second : String) (line : Int) : LockPath :=
  let event (name : String) (line : Int) : Event :=
    { op := .acquire, kind := .mutex, lock := { site := .static, name := .str name },
      location := ⟨"main.rs", line, 1⟩, inst := .str first, guard := .str name, chain := [.str first],
      acquired := none, frame := 0 }
  { root := .str first, events := [event first line, event second (line + 1)] }

def acquisitions (first second : String) (line : Int) : Nesting :=
  let events := (acquiring first second line).events
  ⟨⟨0, events.headD default⟩, ⟨1, events.getLastD default⟩⟩

theorem isWitness_acquisitions {first second : String} (h : first ≠ second) (line : Int) :
    (acquisitions first second line).IsWitness (acquiring first second line) := by
  refine ⟨⟨Nat.zero_lt_one, rfl, rfl, rfl, rfl, ?_⟩, ?_, ?_⟩
  · intro i e hi hj
    change 0 < i at hi
    change i < 1 at hj
    omega
  · intro he
    have hname : (Json.str first).canonical = (Json.str second).canonical := AliasClass.static.inj he
    exact h (by simpa using hname)
  · intro n hn _ _
    have hmem : n ∈ nestings (acquiring first second line) := mem_nestings_iff.mpr hn
    obtain rfl := List.mem_singleton.mp hmem
    exact Nesting.Earlier.irrefl _

end LockAudit.Detection
