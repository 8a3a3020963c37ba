import LockAudit.Detection.Nesting
import LockAudit.Report.Basic

/-! # Findings

Occurrences of one and the same problem, on whatever paths, are merged into one finding: it shows the
first occurrence, is probable if any occurrence is, and lists the call chains of all of them.
-/

namespace LockAudit.Detection

def lockTypeText (e : Event) : String :=
  if e.lock.lockType.truthy then e.kind.name ++ ": " ++ e.lock.lockType.display else e.kind.name

def diagnosis (first second : Event) (chains : List (List Name)) : Diagnosis where
  firstLock := first.lock.describe
  firstLockType := .str (lockTypeText first)
  firstLockSpan := .str first.location.render
  secondLock := second.lock.describe
  secondLockType := .str (lockTypeText second)
  secondLockSpan := .str second.location.render
  chains := chains

def distinctChains (chains : List (List Name)) : List (List Name) :=
  chains.eraseDupsBy fun c d => c.map Json.canonical == d.map Json.canonical

def groupOn {α κ : Type} [Ord κ] (key : α → κ) (xs : List α) : List (List α) :=
  (sortOn key xs).splitBy fun a b => compare (key a) (key b) == .eq

def groupByFirst {α κ : Type} [Ord κ] (key : α → κ) (xs : List α) : List (List α) :=
  let groups := groupOn (fun x : α × Nat => key x.1) xs.zipIdx
  (sortOn (fun g => g.head?.map Prod.snd) groups).map fun g => g.map Prod.fst

def relateGroups {α κ : Type} [Ord κ] [Ranked κ] (key : α → κ) : List α → List α → Relation
  | a :: _, b :: _ => Ranked.relate (key a) (key b)
  | _, _ => .same

def findings? {α κ : Type} [Ord κ] [Ranked κ] (key : α → κ) (xs : List α) :
    Option (List (List α)) :=
  if xs.all fun x => Ranked.isPlain (key x) then some (groupOn key xs)
  else arrange? (relateGroups key) (groupByFirst key xs)

def findings {α κ : Type} [Ord κ] [Ranked κ] (key : α → κ) (xs : List α) : List (List α) :=
  (findings? key xs).getD []

def mergedPossibility (grades : List Possibility) : Possibility :=
  if grades.contains .probably then .probably else .possibly

end LockAudit.Detection
