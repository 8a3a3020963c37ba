/-! # Comparisons without a total order

Values of different sorts cannot be compared at all, and among those that can some stand neither before
nor after others.
-/

namespace LockAudit

inductive Relation
  | before
  | same
  | after
  /-- Different, but neither before the other. -/
  | apart
  /-- Of sorts that cannot be compared. -/
  | alien
  deriving Repr, DecidableEq, Inhabited

namespace Relation

def ofOrdering : Ordering → Relation
  | .lt => before
  | .eq => same
  | .gt => after

def ofOrd {α : Type} [Ord α] (a b : α) : Relation :=
  ofOrdering (compare a b)

def isBefore? : Relation → Option Bool
  | before => some true
  | alien => none
  | _ => some false

def lex {α : Type} (r s : α → α → Relation) (a b : α) : Relation :=
  match r a b with
  | same => s a b
  | other => other

def on {α β : Type} (r : β → β → Relation) (f : α → β) (a b : α) : Relation :=
  r (f a) (f b)

/-- Compares by the first difference; a list stands before those that it begins. -/
def lists {α : Type} (r : α → α → Relation) : List α → List α → Relation
  | [], [] => same
  | [], _ :: _ => before
  | _ :: _, [] => after
  | a :: as, b :: bs =>
    match r a b with
    | same => lists r as bs
    | other => other

end Relation

end LockAudit
