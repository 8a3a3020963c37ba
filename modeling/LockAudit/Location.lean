import LockAudit.Number.Literal

/-! # Source locations

A location is a file with a line and a column, written `file:line:column`. Line and column may be
missing in the text that is read, and a file name may itself hold colons: numbers are taken from the
right, at most two of them, and all before them is the file. A number that is read is never negative, but
a tool that makes up locations may use negative ones as marks.
-/

namespace LockAudit

structure Location where
  file : String
  line : Int := 0
  column : Int := 0
  deriving Repr, DecidableEq, Inhabited

namespace Location

def unknown : Location := { file := "<unknown>" }

instance : Ord Location where
  compare := compareLex (compareOn file) (compareLex (compareOn line) (compareOn column))

def render (l : Location) : String :=
  s!"{l.file}:{l.line}:{l.column}"

def lastColon? (cs : List Char) : Option (List Char × List Char) :=
  let after := cs.reverse.takeWhile (· != ':')
  match cs.reverse.drop after.length with
  | _ :: before => some (before.reverse, after.reverse)
  | [] => none

/-- A word that counts as a line or column: digits, and at least one. -/
def isNumberWord (cs : List Char) : Bool :=
  !cs.isEmpty && cs.all Text.isDigit

def numberWord (cs : List Char) : Except NumeralError Int :=
  Numeral.readInt (String.ofList cs)

/-- Reads a location. The last word is converted first, so its error comes first. -/
def parse (text : String) : Except NumeralError Location :=
  match lastColon? text.toList with
  | none => .ok { file := text }
  | some (before, last) =>
    if !isNumberWord last then .ok { file := text }
    else do
      let n ← numberWord last
      match lastColon? before with
      | none => .ok { file := String.ofList before, line := n }
      | some (file, word) =>
        if isNumberWord word then
          let line ← numberWord word
          .ok { file := String.ofList file, line := line, column := n }
        else .ok { file := String.ofList before, line := n }

end Location

end LockAudit
