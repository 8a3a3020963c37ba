import LockAudit.Number.Binary64
import LockAudit.Text.Blank
import LockAudit.Text.Digit
import LockAudit.Text.Quoted

/-! # Numbers written as words

An integer word has an optional sign and decimal digits of any script, with single underscores between
digits; a real word may also have a decimal point and an exponent, or be a name for infinity or NaN.
Blank characters around the word do not count, except that information separators belong to the word.
-/

namespace LockAudit

inductive NumeralError
  | invalid (text : String)
  | tooLong (digits : Nat)
  deriving Repr, DecidableEq

namespace NumeralError

def message : NumeralError → String
  | invalid text =>
    "invalid literal for int() with base 10: " ++ String.ofList ((Text.quoted text).toList.take 200)
  | tooLong digits =>
    s!"Exceeds the limit (4300 digits) for integer string conversion: value has {digits} digits; " ++
      "use sys.set_int_max_str_digits() to increase the limit"

end NumeralError

namespace Numeral

def digitLimit : Nat := 4300

def wordChars (text : String) : List Char :=
  Text.trimChars (fun c => Text.isBlank c && !Text.isSeparator c) text.toList

/-- A leading sign: whether it is negative, and the rest. -/
def sign : List Char → Bool × List Char
  | '-' :: cs => (true, cs)
  | '+' :: cs => (false, cs)
  | cs => (false, cs)

/-- Every underscore stands between two digits. The flag tells whether a digit stands before. -/
def underscoresOk : Bool → List Char → Bool
  | _, [] => true
  | afterDigit, '_' :: cs =>
    afterDigit && (match cs with
      | c :: _ => Text.isDecimal c
      | [] => false) && underscoresOk false cs
  | _, c :: cs => underscoresOk (Text.isDecimal c) cs

def readInt (text : String) : Except NumeralError Int :=
  let (negative, body) := sign (wordChars text)
  let run := body.takeWhile fun c => Text.isDecimal c || c == '_'
  let digits := run.filterMap Text.decimalValue?
  if digits.isEmpty || !underscoresOk false run then .error (.invalid text)
  else if digitLimit < digits.length then .error (.tooLong digits.length)
  else if run.length < body.length then .error (.invalid text)
  else
    let n := Int.ofNat (Text.ofDigits digits)
    .ok (if negative then -n else n)

def digitRun (cs : List Char) : List Nat × List Char :=
  ((cs.takeWhile Text.isDecimal).filterMap Text.decimalValue?, cs.dropWhile Text.isDecimal)

def exponent? : List Char → Option Int
  | [] => some 0
  | c :: cs =>
    if c == 'e' || c == 'E' then
      let (negative, body) := sign cs
      let (digits, rest) := digitRun body
      if digits.isEmpty || !rest.isEmpty then none
      else
        let n := Int.ofNat (Text.ofDigits digits)
        some (if negative then -n else n)
    else none

/-- A real number without sign: digits, an optional point with digits on at least one side of it, and
an optional exponent. -/
def magnitude? (negative : Bool) (cs : List Char) : Option Binary64 :=
  let (whole, rest) := digitRun cs
  let (fraction, rest) := match rest with
    | '.' :: more => digitRun more
    | _ => ([], rest)
  if whole.isEmpty && fraction.isEmpty then none
  else (exponent? rest).map fun e =>
    Binary64.ofDecimal negative (Text.ofDigits (whole ++ fraction)) (e - Int.ofNat fraction.length)

def readReal? (text : String) : Option Binary64 :=
  let cs := wordChars text
  if !underscoresOk false cs then none
  else
    let (negative, body) := sign (cs.filter (· != '_'))
    let word := String.ofList (body.map Char.toLower)
    if word = "inf" || word = "infinity" then some (.infinite negative)
    else if word = "nan" then some .nan
    else magnitude? negative body

end Numeral

end LockAudit
