import LockAudit.Detection.LockOrder

/-! # Order inversions

Two paths that order two classes in opposite ways may each hold one lock and wait for the other. Pairs of
witnesses at the same four locations are one finding.
-/

namespace LockAudit.Detection

/-- Witnesses on different paths, `backward` ordering the classes of `forward` the other way. Where these
have an order, the one that `forward` puts first stands first. -/
structure Inversion where
  forward : Witness
  backward : Witness
  deriving Repr, DecidableEq, Inhabited

structure InversionKey where
  lower : AliasClass
  upper : AliasClass
  locations : List Location
  deriving Repr, DecidableEq, Inhabited

instance : Ord InversionKey where
  compare := compareLex (compareOn InversionKey.lower)
    (compareLex (compareOn InversionKey.upper) (compareOn InversionKey.locations))

instance : Ranked InversionKey where
  isPlain k := Ranked.isPlain k.lower && Ranked.isPlain k.upper
  relate := Relation.lex (Relation.on Ranked.relate InversionKey.lower)
    (Relation.lex (Relation.on Ranked.relate InversionKey.upper)
      (Relation.on Relation.ofOrd InversionKey.locations))

namespace Inversion

def key (i : Inversion) : InversionKey where
  lower := i.forward.edge.1
  upper := i.forward.edge.2
  locations := [i.forward.first.location, i.forward.second.location,
    i.backward.first.location, i.backward.second.location]

def possibility (i : Inversion) : Possibility :=
  conflictPossibility [i.forward, i.backward]

end Inversion

/-- The pairs of classes that are ordered both ways, unless the first stands after the second. -/
def invertedEdges (ws : List Witness) : List (AliasClass × AliasClass) :=
  let edges := orderEdges ws
  let known := FingerprintSet.ofList edges
  edges.filter fun e => Ranked.relate e.1 e.2 != .after && known.contains (e.2, e.1)

def inversionsOf (known : WitnessIndex) (a b : AliasClass) : List Inversion :=
  let backward := known.withKey (b, a)
  (known.withKey (a, b)).flatMap fun p =>
    (backward.filter fun q => p.path != q.path).map fun q => { forward := p, backward := q }

def inversions (ws : List Witness) : List Inversion :=
  let known := witnessIndex ws
  (invertedEdges ws).flatMap fun e => inversionsOf known e.1 e.2

def inversionReport? : List Inversion → Option Report
  | [] => none
  | i :: rest =>
    let all := i :: rest
    let forward := distinctChains (all.map fun o => o.forward.second.chain)
    let backward := distinctChains (all.map fun o => o.backward.second.chain)
    some (Report.make (mergedPossibility (all.map Inversion.possibility))
      (.conflictLock [diagnosis i.forward.first i.forward.second forward,
        diagnosis i.backward.first i.backward.second backward]))

def inversionReports (ws : List Witness) : List Report :=
  (findings Inversion.key (inversions ws)).filterMap inversionReport?

end LockAudit.Detection
