/-! # Shell words

A line is split into words as a shell does: blanks separate words, quotes hold them together, and a
backslash takes the next character as it is. Between double quotes a backslash does so only before a
double quote or another backslash. There are no comments.
-/

namespace LockAudit

inductive ShellError
  | openQuote
  | openEscape
  deriving Repr, DecidableEq

namespace ShellError

def message : ShellError → String
  | openQuote => "No closing quotation"
  | openEscape => "No escaped character"

end ShellError

namespace ShellWords

inductive Mode
  | plain
  | singleQuoted
  | doubleQuoted
  | escaped
  | escapedInQuotes
  deriving Repr, DecidableEq

def isBlank (c : Char) : Bool :=
  c == ' ' || c == '\t' || c == '\r' || c == '\n'

def isDoubleQuote (c : Char) : Bool :=
  c == '\x22'

def isSingleQuote (c : Char) : Bool :=
  c == '\x27'

def close : Option (List Char) → List String
  | none => []
  | some cs => [String.ofList cs.reverse]

/-- The word with one more character; a word holds its characters last first. -/
def extend (word : Option (List Char)) (cs : List Char) : Option (List Char) :=
  some (cs ++ word.getD [])

def splitFrom : Mode → Option (List Char) → List Char → Except ShellError (List String)
  | .plain, word, [] => .ok (close word)
  | .singleQuoted, _, [] => .error .openQuote
  | .doubleQuoted, _, [] => .error .openQuote
  | .escaped, _, [] => .error .openEscape
  | .escapedInQuotes, _, [] => .error .openEscape
  | .plain, word, c :: cs =>
    if isBlank c then (splitFrom .plain none cs).map (close word ++ ·)
    else if isSingleQuote c then splitFrom .singleQuoted (extend word []) cs
    else if isDoubleQuote c then splitFrom .doubleQuoted (extend word []) cs
    else if c == '\\' then splitFrom .escaped (extend word []) cs
    else splitFrom .plain (extend word [c]) cs
  | .singleQuoted, word, c :: cs =>
    if isSingleQuote c then splitFrom .plain word cs
    else splitFrom .singleQuoted (extend word [c]) cs
  | .doubleQuoted, word, c :: cs =>
    if isDoubleQuote c then splitFrom .plain word cs
    else if c == '\\' then splitFrom .escapedInQuotes word cs
    else splitFrom .doubleQuoted (extend word [c]) cs
  | .escaped, word, c :: cs => splitFrom .plain (extend word [c]) cs
  | .escapedInQuotes, word, c :: cs =>
    let kept := if isDoubleQuote c || c == '\\' then [c] else [c, '\\']
    splitFrom .doubleQuoted (extend word kept) cs

def split (line : String) : Except ShellError (List String) :=
  splitFrom .plain none line.toList

end ShellWords

end LockAudit
