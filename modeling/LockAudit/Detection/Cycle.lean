import LockAudit.Detection.CycleSearch

/-! # Order cycles

A cycle of three or more classes, each ordered before the next, may stop as many executions as it has
witnesses from different paths. Whatever search has found the cycles, each is looked at once and listed from
its smallest class.
-/

namespace LockAudit.Detection

def smallest (a : AliasClass) : List AliasClass → AliasClass
  | [] => a
  | b :: rest => smallest (if (compare b a).isLT then b else a) rest

def fromSmallest : List AliasClass → List AliasClass
  | [] => []
  | a :: rest =>
    let start := (a :: rest).idxOf (smallest a rest)
    (a :: rest).drop start ++ (a :: rest).take start

instance : Fingerprint (List AliasClass) where
  fingerprint c := Fingerprint.finger (c.foldl (fun h a => a.mix h) Fingerprint.seed)

/-- The cycles of three or more classes that a search finds, each once, in ascending order. Two classes in
a circle are an inversion and no cycle. -/
def cycles (edges : List (AliasClass × AliasClass)) (bound : Nat) (search : CycleSearch := simpleCycles) :
    List (List AliasClass) :=
  let found := (search edges bound).filter fun c => 3 ≤ c.length
  sortOn id (distinct (found.map fromSmallest))

def cycleEdges (cycle : List AliasClass) : List (AliasClass × AliasClass) :=
  cycle.zip (cycle.drop 1 ++ cycle.take 1)

/-- Replaces the first witness that another path can stand in for, where `path` holds all chosen ones. -/
def spreadFrom (path : Nat) : List (Witness × List Witness) → Option (List Witness)
  | [] => none
  | (chosen, candidates) :: rest =>
    match candidates.find? fun w => w.path != path with
    | some w => some (w :: rest.map Prod.fst)
    | none => (spreadFrom path rest).map (chosen :: ·)

/-- The first witness of each edge, or, where these lie on one path, with one of them replaced. A cycle
on a single path is that path locking in sequence, so without a second path there is no choice. -/
def spreadWitnesses (edges : List (List Witness)) : Option (List Witness) :=
  match edges.mapM fun ws => ws.head?.map fun w => (w, ws) with
  | none => none
  | some [] => none
  | some ((w, ws) :: rest) =>
    let chosen := (w, ws) :: rest
    if rest.any fun c => c.1.path != w.path then some (chosen.map Prod.fst)
    else spreadFrom w.path chosen

def spreadCycles (ws : List Witness) (bound : Nat) (search : CycleSearch := simpleCycles) :
    List (List AliasClass × List Witness) :=
  let known := witnessIndex ws
  (cycles (orderEdges ws) bound search).filterMap fun cycle =>
    (spreadWitnesses ((cycleEdges cycle).map known.withKey)).map fun chosen => (cycle, chosen)

def cycleReport (chosen : List Witness) : Report :=
  Report.make (conflictPossibility chosen)
    (.conflictLock (chosen.map fun w => diagnosis w.first w.second [w.second.chain]))

end LockAudit.Detection
