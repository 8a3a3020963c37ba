/-! # Blank characters

The white space of Unicode as word trimming understands it: the five ASCII layout controls, the four
information separators, and every space or line separator of the standard. Words are cut out of a text
at a separator and trimmed.
-/

namespace LockAudit.Text

def blankRanges : List (Nat × Nat) :=
  [(0x9, 0xd), (0x1c, 0x20), (0x85, 0x85), (0xa0, 0xa0), (0x1680, 0x1680), (0x2000, 0x200a),
    (0x2028, 0x2029), (0x202f, 0x202f), (0x205f, 0x205f), (0x3000, 0x3000)]

def isBlank (c : Char) : Bool :=
  blankRanges.any fun r => r.1 ≤ c.toNat && c.toNat ≤ r.2

def isSeparator (c : Char) : Bool :=
  0x1c ≤ c.toNat && c.toNat ≤ 0x1f

def trimChars (drop : Char → Bool) (cs : List Char) : List Char :=
  ((cs.dropWhile drop).reverse.dropWhile drop).reverse

def trim (s : String) : String :=
  String.ofList (trimChars isBlank s.toList)

def split (separator : Char) (s : String) : List String :=
  (s.toList.splitOn separator).map String.ofList

end LockAudit.Text
