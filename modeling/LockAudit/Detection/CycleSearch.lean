import LockAudit.BitRows
import LockAudit.Detection.LockOrder

/-! # The search for simple cycles

A search goes on from each class to greater ones only, and only to those from which it can come back in
time.
-/

namespace LockAudit.Detection

abbrev CycleSearch := List (AliasClass × AliasClass) → Nat → List (List AliasClass)

def orderedClasses (edges : List (AliasClass × AliasClass)) : List AliasClass :=
  sortOn id (distinct (edges.flatMap fun e => [e.1, e.2]))

/-- The edges that lie on cycles: those whose end leads back to their beginning. -/
def edgesOnCycles (edges : List (AliasClass × AliasClass)) : List (AliasClass × AliasClass) :=
  let classes := orderedClasses edges
  let rows := (BitRows.ofEdges classes edges).closure
  edges.filter fun e => rows.leads (classes.idxOf e.2) (classes.idxOf e.1)

def classesAfter (edges : List (AliasClass × AliasClass)) (a : AliasClass) : List AliasClass :=
  sortOn id ((edges.filter fun e => e.1 == a).map Prod.snd)

def edgesAbove (edges : List (AliasClass × AliasClass)) (start : AliasClass) :
    List (AliasClass × AliasClass) :=
  edges.filter fun e => (compare start e.1).isLE && (compare start e.2).isLE

def classesBefore (edges : List (AliasClass × AliasClass)) (start : AliasClass)
    (classes : List AliasClass) : List AliasClass :=
  ((edges.filter fun e => e.1 != start && (e.2 == start || classes.contains e.2)).map
    Prod.fst).eraseDups

/-- For each number of edges, from one up to the given number, the classes from which at most that many
edges lead back to `start`; the greatest number comes first. As soon as a further edge adds no class, none
ever will. -/
def homeward (edges : List (AliasClass × AliasClass)) (start : AliasClass) :
    Nat → List (List AliasClass)
  | 0 => []
  | n + 1 =>
    match homeward edges start n with
    | [] => [classesBefore edges start []]
    | [near] => [classesBefore edges start near, near]
    | near :: nearer :: rest =>
      let next := if near.length = nearer.length then near else classesBefore edges start near
      next :: near :: nearer :: rest

abbrev OrderTable := List (AliasClass × List AliasClass)

def OrderTable.after (table : OrderTable) (a : AliasClass) : List AliasClass :=
  match table.find? fun t => t.1 == a with
  | some t => t.2
  | none => []

/-- The simple cycles that start with the classes of `trail`, the last of which comes first and the first
of which is `start`. For each class that may still be added, `ways` lists the classes from which `start`
can be reached again in time. -/
def cyclesFrom (table : OrderTable) (start : AliasClass) (ways : List (List AliasClass))
    (trail : List AliasClass) : List (List AliasClass) :=
  let next := table.after (trail.headD start)
  let here := if next.contains start then [trail.reverse] else []
  match ways with
  | [] => here
  | allowed :: rest =>
    let fresh := next.filter fun c => allowed.contains c && !trail.contains c
    here ++ fresh.flatMap fun c => cyclesFrom table start rest (c :: trail)

def cyclesAt (edges : List (AliasClass × AliasClass)) (room : Nat) (start : AliasClass) :
    List (List AliasClass) :=
  let edges := edgesAbove edges start
  let ways := homeward edges start room
  let table := (start :: ways.headD []).map fun c => (c, classesAfter edges c)
  cyclesFrom table start ways [start]

def simpleCycles (edges : List (AliasClass × AliasClass)) (bound : Nat) : List (List AliasClass) :=
  let edges := edgesOnCycles edges
  let classes := orderedClasses edges
  let room := min bound classes.length - 1
  classes.flatMap (cyclesAt edges room)

end LockAudit.Detection
