/-! # Sorting

Lists are sorted by a stable merge sort. Text compares by code point, lists lexicographically, and
`false` stands before `true`.
-/

namespace LockAudit

/-- `xs` in ascending order; elements that compare as equal keep their order. -/
def sortBy {α : Type} (cmp : α → α → Ordering) (xs : List α) : List α :=
  xs.mergeSort fun a b => (cmp a b).isLE

def sortOn {α κ : Type} [Ord κ] (key : α → κ) (xs : List α) : List α :=
  sortBy (compareOn key) xs

end LockAudit
