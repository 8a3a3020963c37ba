import LockAudit.Json.Basic
import LockAudit.Number.Decimal
import LockAudit.Text.Quoted

/-! # Values shown in messages

A message that complains about a value of a document shows it with quoted texts, `None` for null and
capitalised truth values.
-/

namespace LockAudit.Json

mutual

def shown : Json → String
  | null => "None"
  | bool b => if b then "True" else "False"
  | int i => i.repr
  | real x => x.shortest
  | str s => Text.quoted s
  | arr [] => "[]"
  | arr (x :: xs) => "[" ++ shown x ++ shownItems xs ++ "]"
  | obj [] => "\x7b\x7d"
  | obj ((k, v) :: fs) =>
    "\x7b" ++ Text.quoted k ++ ": " ++ shown v ++ shownFields fs ++ "\x7d"

def shownItems : List Json → String
  | [] => ""
  | x :: xs => ", " ++ shown x ++ shownItems xs

def shownFields : List (String × Json) → String
  | [] => ""
  | (k, v) :: fs => ", " ++ Text.quoted k ++ ": " ++ shown v ++ shownFields fs

end

end LockAudit.Json
