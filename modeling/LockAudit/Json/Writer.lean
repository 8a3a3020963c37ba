import LockAudit.Json.Basic
import LockAudit.Number.Decimal
import LockAudit.Text.Quoted

/-! # Writing JSON

Texts are written in ASCII, with every other character as one or two units of UTF-16. The indented
form puts each item and field on a line of its own, two columns deeper than what holds it. A value is
written onto the end of the text before it.
-/

namespace LockAudit.Json

def unit (n : Nat) : String :=
  "\\u" ++ Text.hex 4 n

def escapedChar (c : Char) : String :=
  if c = '"' then "\\\""
  else if c = '\\' then "\\\\"
  else if c = '\n' then "\\n"
  else if c = '\r' then "\\r"
  else if c = '\t' then "\\t"
  else if c.toNat = 8 then "\\b"
  else if c.toNat = 12 then "\\f"
  else if 0x20 ≤ c.toNat && c.toNat ≤ 0x7e then c.toString
  else if c.toNat < 0x10000 then unit c.toNat
  else
    let n := c.toNat - 0x10000
    unit (0xd800 + n / 0x400) ++ unit (0xdc00 + n % 0x400)

def escapedSymbol : Text.Symbol → String
  | .char c => escapedChar c
  | .lone n => unit n

def putText (out s : String) : String :=
  ((Text.symbols s.toList).foldl (fun out c => out ++ escapedSymbol c) (out.push '"')).push '"'

def realText : Binary64 → String
  | .nan => "NaN"
  | .infinite s => if s then "-Infinity" else "Infinity"
  | x => x.shortest

def newLine (depth : Nat) : String :=
  "\n" ++ String.ofList (List.replicate (2 * depth) ' ')

mutual

def putIndented (depth : Nat) (out : String) : Json → String
  | null => out ++ "null"
  | bool b => out ++ if b then "true" else "false"
  | int i => out ++ i.repr
  | real x => out ++ realText x
  | str s => putText out s
  | arr [] => out ++ "[]"
  | arr (x :: xs) =>
    let out := putIndented (depth + 1) (out ++ "[" ++ newLine (depth + 1)) x
    putIndentedItems (depth + 1) out xs ++ newLine depth ++ "]"
  | obj [] => out ++ "\x7b\x7d"
  | obj ((k, v) :: fs) =>
    let out := putIndented (depth + 1) (putText (out ++ "\x7b" ++ newLine (depth + 1)) k ++ ": ") v
    putIndentedFields (depth + 1) out fs ++ newLine depth ++ "\x7d"

def putIndentedItems (depth : Nat) (out : String) : List Json → String
  | [] => out
  | x :: xs => putIndentedItems depth (putIndented depth (out ++ "," ++ newLine depth) x) xs

def putIndentedFields (depth : Nat) (out : String) : List (String × Json) → String
  | [] => out
  | (k, v) :: fs =>
    let out := putText (out ++ "," ++ newLine depth) k ++ ": "
    putIndentedFields depth (putIndented depth out v) fs

end

def indented (v : Json) : String :=
  putIndented 0 "" v

mutual

def putCompact (out : String) : Json → String
  | null => out ++ "null"
  | bool b => out ++ if b then "true" else "false"
  | int i => out ++ i.repr
  | real x => out ++ realText x
  | str s => putText out s
  | arr [] => out ++ "[]"
  | arr (x :: xs) => putCompactItems (putCompact (out ++ "[") x) xs ++ "]"
  | obj [] => out ++ "\x7b\x7d"
  | obj ((k, v) :: fs) =>
    putCompactFields (putCompact (putText (out ++ "\x7b") k ++ ":") v) fs ++ "\x7d"

def putCompactItems (out : String) : List Json → String
  | [] => out
  | x :: xs => putCompactItems (putCompact (out ++ ",") x) xs

def putCompactFields (out : String) : List (String × Json) → String
  | [] => out
  | (k, v) :: fs => putCompactFields (putCompact (putText (out ++ ",") k ++ ":") v) fs

end

def compact (v : Json) : String :=
  putCompact "" v

end LockAudit.Json
