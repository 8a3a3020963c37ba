import LockAudit.Json.Basic
import LockAudit.Number.Literal
import LockAudit.Text.Surrogate

/-! # Reading JSON

One value with blanks around it. Beyond the standard, `NaN`, `Infinity` and `-Infinity` are numbers,
and the last of several fields with one name counts. Raw control characters in texts are refused, and so
is deep nesting.
-/

namespace LockAudit.Json

/-- Why a text is no JSON value: the number of characters left where reading stopped, an integer with too
many digits, or lists and objects nested too deep. -/
inductive ReadError
  | malformed (left : Nat)
  | numeral (cause : NumeralError)
  | tooDeep
  deriving Repr, DecidableEq

/-- What a reader yields: a value and the characters after it. -/
abbrev Read (α : Type) := Except ReadError (α × List Char)

def malformedAt {α : Type} (cs : List Char) : Read α :=
  .error (.malformed cs.length)

def skipBlanks (cs : List Char) : List Char :=
  cs.dropWhile fun c => c == ' ' || c == '\t' || c == '\n' || c == '\r'

def hexValue? (c : Char) : Option Nat :=
  if '0' ≤ c && c ≤ '9' then some (c.toNat - 48)
  else if 'a' ≤ c && c ≤ 'f' then some (c.toNat - 87)
  else if 'A' ≤ c && c ≤ 'F' then some (c.toNat - 55)
  else none

def hexUnit? : List Char → Option (Nat × List Char)
  | a :: b :: c :: d :: rest => do
    let a ← hexValue? a
    let b ← hexValue? b
    let c ← hexValue? c
    let d ← hexValue? d
    some (((a * 16 + b) * 16 + c) * 16 + d, rest)
  | _ => none

def isHighSurrogate (n : Nat) : Bool := 0xd800 ≤ n && n ≤ 0xdbff

def isLowSurrogate (n : Nat) : Bool := 0xdc00 ≤ n && n ≤ 0xdfff

def depthLimit : Nat := 985

/-- The symbol after `\u`: one unit, or two that form a surrogate pair. -/
def escapedUnit? (cs : List Char) : Option (Text.Symbol × List Char) := do
  let (high, rest) ← hexUnit? cs
  if isHighSurrogate high then
    match rest with
    | '\\' :: 'u' :: more =>
      match hexUnit? more with
      | some (low, after) =>
        if isLowSurrogate low then
          some (.char (Char.ofNat (0x10000 + (high - 0xd800) * 0x400 + (low - 0xdc00))), after)
        else some (.lone high, rest)
      | none => some (.lone high, rest)
    | _ => some (.lone high, rest)
  else if isLowSurrogate high then some (.lone high, rest)
  else some (.char (Char.ofNat high), rest)

def escaped? : List Char → Option (Text.Symbol × List Char)
  | 'u' :: cs => escapedUnit? cs
  | c :: cs =>
    match c with
    | '"' => some (.char '"', cs)
    | '\\' => some (.char '\\', cs)
    | '/' => some (.char '/', cs)
    | 'b' => some (.char (Char.ofNat 8), cs)
    | 'f' => some (.char (Char.ofNat 12), cs)
    | 'n' => some (.char '\n', cs)
    | 'r' => some (.char '\r', cs)
    | 't' => some (.char '\t', cs)
    | _ => none
  | [] => none

/-- The rest of a text after its opening quote; `done` holds the characters read, last first. -/
def text : Nat → List Char → List Char → Read String
  | 0, _, cs => malformedAt cs
  | fuel + 1, done, cs =>
    match cs with
    | [] => malformedAt cs
    | '"' :: rest => .ok (String.ofList done.reverse, rest)
    | '\\' :: rest =>
      match escaped? rest with
      | some (symbol, more) => text fuel (symbol.form.reverse ++ done) more
      | none => malformedAt rest
    | c :: rest => if c.toNat < 0x20 then malformedAt cs else text fuel (c :: done) rest

def isAsciiDigit (c : Char) : Bool := '0' ≤ c && c ≤ '9'

def fraction : List Char → List Char × List Char
  | '.' :: cs =>
    let digits := cs.takeWhile isAsciiDigit
    if digits.isEmpty then ([], '.' :: cs) else ('.' :: digits, cs.dropWhile isAsciiDigit)
  | cs => ([], cs)

def exponent : List Char → List Char × List Char
  | e :: cs =>
    if e == 'e' || e == 'E' then
      let (sign, body) := match cs with
        | '-' :: more => (['-'], more)
        | '+' :: more => (['+'], more)
        | _ => ([], cs)
      let digits := body.takeWhile isAsciiDigit
      if digits.isEmpty then ([], e :: cs) else (e :: sign ++ digits, body.dropWhile isAsciiDigit)
    else ([], e :: cs)
  | [] => ([], [])

def number (negative : Bool) (cs : List Char) : Read Json :=
  let digits := match cs with
    | '0' :: _ => ['0']
    | _ => cs.takeWhile isAsciiDigit
  if digits.isEmpty then malformedAt cs
  else
    let (frac, rest) := fraction (cs.drop digits.length)
    let (expo, rest) := exponent rest
    if frac.isEmpty && expo.isEmpty then
      match Numeral.readInt (String.ofList digits) with
      | .ok n => .ok (int (if negative then -n else n), rest)
      | .error e => .error (.numeral e)
    else
      match Numeral.magnitude? negative (digits ++ frac ++ expo) with
      | some x => .ok (real x, rest)
      | none => malformedAt cs

def afterWord? (word : String) (cs : List Char) : Option (List Char) :=
  if word.toList.isPrefixOf cs then some (cs.drop word.length) else none

def plain (cs : List Char) : Read Json :=
  let words : List (String × Json) :=
    [("null", null), ("true", bool true), ("false", bool false), ("NaN", real .nan),
      ("Infinity", real (.infinite false)), ("-Infinity", real (.infinite true))]
  match words.findSome? fun w => (afterWord? w.1 cs).map fun rest => (w.2, rest) with
  | some found => .ok found
  | none =>
    match cs with
    | '-' :: rest => number true rest
    | _ => number false cs

mutual

/-- A value, blanks before it skipped. Lists and objects may be nested `depth` deep. -/
def value : Nat → Nat → List Char → Read Json
  | 0, _, cs => malformedAt cs
  | fuel + 1, depth, cs =>
    match skipBlanks cs with
    | [] => malformedAt []
    | '"' :: rest => (text fuel [] rest).map fun r => (str r.1, r.2)
    | '[' :: rest =>
      match depth with
      | 0 => .error .tooDeep
      | depth + 1 =>
        match skipBlanks rest with
        | ']' :: more => .ok (arr [], more)
        | _ => (items fuel depth [] rest).map fun r => (arr r.1, r.2)
    | '\x7b' :: rest =>
      match depth with
      | 0 => .error .tooDeep
      | depth + 1 =>
        match skipBlanks rest with
        | '\x7d' :: more => .ok (obj [], more)
        | _ => (fields fuel depth [] rest).map fun r => (obj r.1, r.2)
    | c :: rest => plain (c :: rest)

/-- The items of a list up to its end; `done` holds the items read, last first. -/
def items : Nat → Nat → List Json → List Char → Read (List Json)
  | 0, _, _, cs => malformedAt cs
  | fuel + 1, depth, done, cs =>
    match value fuel depth cs with
    | .error e => .error e
    | .ok (v, rest) =>
      match skipBlanks rest with
      | ',' :: more => items fuel depth (v :: done) more
      | ']' :: more => .ok ((v :: done).reverse, more)
      | other => malformedAt other

def fields : Nat → Nat → List (String × Json) → List Char → Read (List (String × Json))
  | 0, _, _, cs => malformedAt cs
  | fuel + 1, depth, done, cs =>
    match skipBlanks cs with
    | '"' :: rest =>
      match text fuel [] rest with
      | .error e => .error e
      | .ok (name, rest) =>
        match skipBlanks rest with
        | ':' :: rest =>
          match value fuel depth rest with
          | .error e => .error e
          | .ok (v, rest) =>
            match skipBlanks rest with
            | ',' :: more => fields fuel depth (insertField done name v) more
            | '\x7d' :: more => .ok (insertField done name v, more)
            | other => malformedAt other
        | other => malformedAt other
    | other => malformedAt other

end

/-- Reads a text that holds exactly one value. An item or field of a list or object takes two steps and at
least as many characters, and a text one step for each character, so twice the length bounds them all. -/
def read (source : String) : Except ReadError Json :=
  let cs := source.toList
  match value (2 * cs.length + 2) depthLimit cs with
  | .error e => .error e
  | .ok (v, rest) =>
    match skipBlanks rest with
    | [] => .ok v
    | other => .error (.malformed other.length)

end LockAudit.Json
