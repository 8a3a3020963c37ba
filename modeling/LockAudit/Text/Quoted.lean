import LockAudit.Text.Printable
import LockAudit.Text.Surrogate

/-! # Quoted text

Text as it appears inside messages: between single quotes, or between double quotes where it holds a
single quote and no double one. A backslash, the quote in use and the characters that cannot be
printed are escaped, so the quoted text is one printable line.
-/

namespace LockAudit.Text

def hex (width n : Nat) : String :=
  let ds := Nat.toDigits 16 n
  String.ofList (List.replicate (width - ds.length) '0' ++ ds)

def singleQuote : Char := '\x27'

def doubleQuote : Char := '\x22'

def quoteMark (cs : List Char) : Char :=
  if cs.contains singleQuote && !cs.contains doubleQuote then doubleQuote else singleQuote

def quotedChar (mark c : Char) : String :=
  if c = mark || c = '\\' then String.ofList ['\\', c]
  else if c = '\n' then "\\n"
  else if c = '\r' then "\\r"
  else if c = '\t' then "\\t"
  else if isPrintable c then c.toString
  else if c.toNat < 0x100 then "\\x" ++ hex 2 c.toNat
  else if c.toNat < 0x10000 then "\\u" ++ hex 4 c.toNat
  else "\\U" ++ hex 8 c.toNat

def quotedSymbol (mark : Char) : Symbol → String
  | .char c => quotedChar mark c
  | .lone unit => "\\u" ++ hex 4 unit

def quoted (s : String) : String :=
  let mark := quoteMark s.toList
  mark.toString ++ String.join ((symbols s.toList).map (quotedSymbol mark)) ++ mark.toString

end LockAudit.Text
