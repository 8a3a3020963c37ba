import LockAudit.Order.Relation

/-! # Putting values in order where they may have none

A stable merge sort that adapts to the runs it finds. It asks only whether one value stands before
another, and gives up where two cannot be compared. Where the answers come from a total order, the outcome
is the one sorted list; where they do not, it is the list to which these very questions lead.

The list is cut into runs, short ones are filled up by insertion, and neighbouring runs are merged by the
depth at which their common border stands in an even subdivision of the whole list. A merge that takes many
values in a row from one run looks for the end of such a row by leaps.
-/

namespace LockAudit

namespace Arrange

variable {α : Type}

abbrev Question (α : Type) := α → α → Option Bool

/-! ### Searching -/

/-- Halves the positions from `low` to `high` until one is left: that of the first value which is not
below, if all that are come first. -/
def halve (below : α → Option Bool) (xs : List α) : Nat → Nat → Nat → Option Nat
  | 0, low, _ => some low
  | rounds + 1, low, high =>
    if low < high then do
      let middle := low + (high - low) / 2
      if ← below (← xs[middle]?) then halve below xs rounds (middle + 1) high
      else halve below xs rounds low middle
    else some low

/-- Leaps ever further while `on` holds: the last distance at which it did, and the next one. -/
def leap (on : Nat → Option Bool) (limit : Nat) : Nat → Nat → Nat → Option (Nat × Nat)
  | 0, last, next => some (last, min next limit)
  | rounds + 1, last, next =>
    if next < limit then do
      if ← on next then leap on limit rounds next (2 * next + 1) else some (last, next)
    else some (last, limit)

def search (below : α → Option Bool) (xs : List α) (hint : Nat) : Option Nat := do
  if ← below (← xs[hint]?) then
    let on (distance : Nat) : Option Bool := do below (← xs[hint + distance]?)
    let (last, next) ← leap on (xs.length - hint) xs.length 0 1
    halve below xs xs.length (hint + last + 1) (hint + next)
  else
    let on (distance : Nat) : Option Bool := do return !(← below (← xs[hint - distance]?))
    let (last, next) ← leap on (hint + 1) xs.length 0 1
    halve below xs xs.length (hint + 1 - next) (hint - last)

/-- How many values at the front of `xs` stay before `x` where `x` comes after its equals. -/
def upTo (isBefore? : Question α) (x : α) (xs : List α) (hint : Nat) : Option Nat :=
  search (fun y => (isBefore? x y).map not) xs hint

/-- How many values at the front of `xs` stay before `x` where `x` comes before its equals. -/
def strictlyUpTo (isBefore? : Question α) (x : α) (xs : List α) (hint : Nat) : Option Nat :=
  search (fun y => isBefore? y x) xs hint

/-! ### Runs -/

def goingOn (isBefore? : Question α) (falling : Bool) : α → List α → Option Nat
  | _, [] => some 0
  | a, b :: rest => do
    if (← isBefore? b a) = falling then return (← goingOn isBefore? falling b rest) + 1 else return 0

def frontRun (isBefore? : Question α) : List α → Option (List α × List α)
  | a :: b :: rest => do
    let falling ← isBefore? b a
    let further ← goingOn isBefore? falling b rest
    let run := a :: b :: rest.take further
    return (if falling then run.reverse else run, rest.drop further)
  | xs => some (xs, [])

def insert (isBefore? : Question α) (run : List α) (x : α) : Option (List α) := do
  let place ← halve (fun y => (isBefore? x y).map not) run run.length 0 run.length
  return run.take place ++ x :: run.drop place

def nextRun (isBefore? : Question α) (least : Nat) (xs : List α) : Option (List α × List α) := do
  let (run, rest) ← frontRun isBefore? xs
  let missing := least - run.length
  return (← (rest.take missing).foldlM (insert isBefore?) run, rest.drop missing)

/-! ### Merging two runs -/

/-- A merge on its way. Of the run `keep` one value at least stays to the end. -/
structure Merging (α : Type) where
  /-- The values in their places, last first. -/
  merged : List α
  keep : List α
  pull : List α

namespace Merging

def moveKeep (m : Merging α) (count : Nat) : Merging α where
  merged := (m.keep.take count).reverse ++ m.merged
  keep := m.keep.drop count
  pull := m.pull

def movePull (m : Merging α) (count : Nat) : Merging α where
  merged := (m.pull.take count).reverse ++ m.merged
  keep := m.keep
  pull := m.pull.drop count

def isDone (m : Merging α) : Bool :=
  match m.pull, m.keep with
  | [], _ => true
  | _, [] => true
  | _, [_] => true
  | _, _ => false

def result (m : Merging α) : List α :=
  m.merged.reverse ++ m.pull ++ m.keep

end Merging

structure Direction (α : Type) where
  /-- Whether the value at hand of the run `pull` goes before that of `keep`. -/
  pulls? : α → α → Option Bool
  /-- How many values of `keep` go before one of `pull`. -/
  keepSpan : α → List α → Option Nat
  /-- How many values of `pull` go before one of `keep`. -/
  pullSpan : α → List α → Option Nat
  /-- Whether leaps start in `keep`. -/
  keepFirst : Bool

/-- From the front: the first run is kept. -/
def forwards (isBefore? : Question α) : Direction α where
  pulls? p k := isBefore? p k
  keepSpan p keep := upTo isBefore? p keep 0
  pullSpan k pull := strictlyUpTo isBefore? k pull 0
  keepFirst := true

/-- From the back, both runs being turned round: the second run is kept. -/
def backwards (isBefore? : Question α) : Direction α where
  pulls? p k := isBefore? k p
  keepSpan p keep := do
    return keep.length - (← strictlyUpTo isBefore? p keep.reverse (keep.length - 1))
  pullSpan k pull := do
    return pull.length - (← upTo isBefore? k pull.reverse (pull.length - 1))
  keepFirst := false

/-- How a merge goes on: one by one, with the numbers of values taken in a row, or by leaps. -/
inductive Pace
  | single (kept pulled : Nat)
  | leaping

def worthLeaps : Nat := 7

/-- A row of `keep`, and the value of `pull` after it. Also the number of values in the row. -/
def leapKeep (d : Direction α) (m : Merging α) : Option (Merging α × Nat) :=
  match m.pull with
  | [] => some (m, 0)
  | p :: _ => do
    let count ← d.keepSpan p m.keep
    let m := m.moveKeep count
    return (if m.isDone then m else m.movePull 1, count)

/-- A row of `pull`, and the value of `keep` after it. Also the number of values in the row. -/
def leapPull (d : Direction α) (m : Merging α) : Option (Merging α × Nat) :=
  match m.keep with
  | [] => some (m, 0)
  | k :: _ => do
    let count ← d.pullSpan k m.pull
    let m := m.movePull count
    return (if m.isDone then m else m.moveKeep 1, count)

def leapBoth (d : Direction α) (m : Merging α) : Option (Merging α × Bool) := do
  let (m, first) ← if d.keepFirst then leapKeep d m else leapPull d m
  if m.isDone then return (m, true)
  let (m, second) ← if d.keepFirst then leapPull d m else leapKeep d m
  return (m, worthLeaps ≤ first || worthLeaps ≤ second)

def takeOne (d : Direction α) (m : Merging α) (kept pulled : Nat) :
    Option (Merging α × Nat × Nat) :=
  match m.pull, m.keep with
  | p :: _, k :: _ => do
    if ← d.pulls? p k then return (m.movePull 1, 0, pulled + 1)
    else return (m.moveKeep 1, kept + 1, 0)
  | _, _ => some (m, kept, pulled)

/-- Merges to the end. With `patience` many values in a row the merge goes on by leaps, as long as these
are worth it; each round of leaps shortens the patience and their end lengthens it. -/
def mergeOn (d : Direction α) : Nat → Nat → Pace → Merging α → Option (Merging α × Nat)
  | 0, patience, _, m => some (m, patience)
  | rounds + 1, patience, pace, m =>
    if m.isDone then some (m, patience)
    else
      match pace with
      | .single kept pulled => do
        let (m, kept, pulled) ← takeOne d m kept pulled
        if m.isDone then return (m, patience)
        else if patience ≤ kept || patience ≤ pulled then
          mergeOn d rounds (patience + 1) .leaping m
        else mergeOn d rounds patience (.single kept pulled) m
      | .leaping => do
        let patience := if 1 < patience then patience - 1 else patience
        let (m, worth) ← leapBoth d m
        if m.isDone then return (m, patience)
        else if worth then mergeOn d rounds patience .leaping m
        else mergeOn d rounds (patience + 1) (.single 0 0) m

/-- Merges two runs of which the first value of `pull` is known to come first. -/
def mergeFrom (d : Direction α) (patience : Nat) (keep pull : List α) : Option (List α × Nat) := do
  let m : Merging α := { merged := [], keep, pull }
  let (m, patience) ← mergeOn d (keep.length + pull.length) patience (.single 0 0) (m.movePull 1)
  return (m.result, patience)

def mergeShorter (isBefore? : Question α) (patience : Nat) (a b : List α) :
    Option (List α × Nat) :=
  if a.length ≤ b.length then mergeFrom (forwards isBefore?) patience a b
  else
    (mergeFrom (backwards isBefore?) patience b.reverse a.reverse).map fun m => (m.1.reverse, m.2)

/-- Merges two neighbouring runs. What comes before the second run or after the first stays. -/
def mergeRuns (isBefore? : Question α) (patience : Nat) (a b : List α) : Option (List α × Nat) :=
  match b with
  | [] => some (a, patience)
  | first :: _ => do
    let front ← upTo isBefore? first a 0
    let middle := a.drop front
    match middle.getLast? with
    | none => return (a ++ b, patience)
    | some last =>
      let count ← strictlyUpTo isBefore? last b (b.length - 1)
      let left := b.take count
      if left.isEmpty then return (a ++ b, patience)
      let (merged, patience) ← mergeShorter isBefore? patience middle left
      return (a.take front ++ merged ++ b.drop count, patience)

/-! ### Merging all runs -/

structure Run (α : Type) where
  /-- The number of values before the run. -/
  start : Nat
  values : List α
  /-- The depth of the border after the run. -/
  depth : Nat

structure Pending (α : Type) where
  runs : List (Run α)
  patience : Nat

/-- How often a list of `size` values has to be halved until the points at `a` and `b`, both in half
values, lie in different parts. -/
def splitDepth (size : Nat) : Nat → Nat → Nat → Nat
  | 0, _, _ => 0
  | rounds + 1, a, b =>
    if size ≤ a then splitDepth size rounds (2 * (a - size)) (2 * (b - size)) + 1
    else if size ≤ b then 1
    else splitDepth size rounds (2 * a) (2 * b) + 1

/-- The depth of the border after a run, which `next` values follow: where its middle and theirs are
parted. -/
def borderDepth (size : Nat) (r : Run α) (next : Nat) : Nat :=
  let a := 2 * r.start + r.values.length
  splitDepth size (size + 2) a (a + r.values.length + next)

def mergeDeeper (isBefore? : Question α) (depth : Nat) : Nat → List (Run α) → Nat →
    Option (Pending α)
  | rounds + 1, top :: under :: rest, patience =>
    if depth < under.depth then do
      let (values, patience) ← mergeRuns isBefore? patience under.values top.values
      mergeDeeper isBefore? depth rounds ({ under with values } :: rest) patience
    else some { runs := top :: under :: rest, patience }
  | _, runs, patience => some { runs, patience }

def Pending.push (isBefore? : Question α) (size : Nat) (p : Pending α) (values : List α) :
    Option (Pending α) :=
  match p.runs with
  | [] => some { p with runs := [{ start := 0, values, depth := 0 }] }
  | top :: _ => do
    let start := top.start + top.values.length
    let depth := borderDepth size top values.length
    let p ← mergeDeeper isBefore? depth p.runs.length p.runs p.patience
    let runs := match p.runs with
      | top :: rest => { top with depth } :: rest
      | [] => []
    return { p with runs := { start, values, depth := 0 } :: runs }

/-- Merges all runs that wait, of the last three the outer one that is shorter with the middle one. -/
def mergeAll (isBefore? : Question α) : Nat → List (Run α) → Nat → Option (List α)
  | rounds + 1, top :: middle :: low :: rest, patience => do
    if low.values.length < top.values.length then
      let (values, patience) ← mergeRuns isBefore? patience low.values middle.values
      mergeAll isBefore? rounds (top :: { low with values } :: rest) patience
    else
      let (values, patience) ← mergeRuns isBefore? patience middle.values top.values
      mergeAll isBefore? rounds ({ middle with values } :: low :: rest) patience
  | _ + 1, [top, under], patience => do
    return (← mergeRuns isBefore? patience under.values top.values).1
  | _, runs, _ => some (runs.reverse.flatMap Run.values)

/-- The least length of a run: the size of the list halved until it is below 64, one more if any half
was odd. -/
def leastRun : Nat → Nat → Nat → Nat
  | 0, size, odd => size + odd
  | rounds + 1, size, odd =>
    if size < 64 then size + odd else leastRun rounds (size / 2) (if size % 2 = 1 then 1 else odd)

def pushAll (isBefore? : Question α) (size least : Nat) : Nat → Pending α → List α →
    Option (Pending α)
  | rounds + 1, p, x :: xs => do
    let (run, rest) ← nextRun isBefore? least (x :: xs)
    pushAll isBefore? size least rounds (← p.push isBefore? size run) rest
  | _, p, _ => some p

end Arrange

def arrange? {α : Type} (relate : α → α → Relation) (xs : List α) : Option (List α) := do
  let isBefore? (a b : α) := (relate a b).isBefore?
  let size := xs.length
  let p ← Arrange.pushAll isBefore? size (Arrange.leastRun size size 0) size
    { runs := [], patience := Arrange.worthLeaps } xs
  Arrange.mergeAll isBefore? p.runs.length p.runs p.patience

end LockAudit
