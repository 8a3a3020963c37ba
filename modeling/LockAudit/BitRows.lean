/-! # Relations as rows of bits

A relation between the nodes of a list is kept as one number for each node, whose bits are the positions
of the nodes to which it leads. The relation is closed under going on by taking each node in turn as a
pivot: whatever leads to it then also leads to all that it leads to.
-/

namespace LockAudit

abbrev BitRows := List Nat

namespace BitRows

def leads (rows : BitRows) (i j : Nat) : Bool :=
  (rows[i]?.getD 0).testBit j

def ofPositions (positions : List Nat) : Nat :=
  positions.foldl (fun row j => row ||| Nat.shiftLeft 1 j) 0

def ofEdges {α : Type} [BEq α] (nodes : List α) (edges : List (α × α)) : BitRows :=
  nodes.map fun a => ofPositions ((edges.filter fun e => e.1 == a).map fun e => nodes.idxOf e.2)

def addPivot (rows : BitRows) (k : Nat) : BitRows :=
  let through := rows[k]?.getD 0
  rows.map fun row => if row.testBit k then row ||| through else row

theorem leads_addPivot (rows : BitRows) (k i j : Nat) :
    (rows.addPivot k).leads i j = (rows.leads i j || (rows.leads i k && rows.leads k j)) := by
  unfold leads addPivot
  rw [List.getElem?_map]
  cases rows[i]? with
  | none => simp
  | some row =>
    by_cases h : row.testBit k = true
    · simp [h]
    · simp [h]

def closure (rows : BitRows) : BitRows :=
  (List.range rows.length).foldl addPivot rows

end BitRows

end LockAudit
