/-! # Lone surrogates

Half of a surrogate pair that stands alone is no character, yet a text can hold it. Texts are strings in
which a lone surrogate is written by two characters: the mark, which is the last character before the
surrogates and is assigned to nothing, and an ideograph that tells which half it is. The mark itself is
written in the same way. So every sequence of symbols has one form of its own, two forms compare as the
symbols do, and a form that follows another does not change it.
-/

namespace LockAudit.Text

inductive Symbol
  | char (c : Char)
  | lone (unit : Nat)
  deriving Repr, DecidableEq

def mark : Char :=
  Char.ofNat 0xd7ff

def marked (distance : Nat) : List Char :=
  [mark, Char.ofNat (0x4e00 + distance)]

def marked? (d : Char) : Option Symbol :=
  if d.toNat < 0x4e00 then none
  else if d.toNat = 0x4e00 then some (.char mark)
  else if d.toNat ≤ 0x5600 then some (.lone (0xd7ff + (d.toNat - 0x4e00)))
  else none

namespace Symbol

def form : Symbol → List Char
  | char c => if c = mark then marked 0 else [c]
  | lone unit => marked (unit - 0xd7ff)

def text (s : Symbol) : String :=
  String.ofList s.form

end Symbol

def symbols : List Char → List Symbol
  | [] => []
  | [c] => [.char c]
  | c :: d :: rest =>
    match if c = mark then marked? d else none with
    | some s => s :: symbols rest
    | none => .char c :: symbols (d :: rest)

def ofPlain (s : String) : String :=
  if s.contains mark then String.ofList (s.toList.flatMap fun c => (Symbol.char c).form) else s

def isWhole (s : String) : Bool :=
  (symbols s.toList).all fun
    | .char _ => true
    | .lone _ => false

def toPlain (s : String) : String :=
  if s.contains mark then
    String.ofList ((symbols s.toList).map fun
      | .char c => c
      | .lone _ => Char.ofNat 0xfffd)
  else s

end LockAudit.Text
