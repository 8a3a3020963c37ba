import LockAudit.Text.Digit
import LockAudit.Text.Quoted

/-! # The grammar of command lines

A command line is a list of words. An option is named in full or by the start of a long name that only
one option has; it takes its value from the rest of its word or from the next word, and short switches
may share a word. What looks like an option is never a value. Two dashes end the options. The words that
are no options and no values are positional, and only the first run of them counts.
-/

namespace LockAudit

/-- An option: all its names, and whether it takes a value. -/
structure OptionSpec (φ : Type) where
  flag : φ
  names : List String
  takesValue : Bool
  deriving Repr

structure Grammar (φ : Type) where
  options : List (OptionSpec φ)
  positional : Bool

inductive GrammarError
  | ambiguous (word : String) (candidates : List String)
  | missingValue (names : List String)
  | unwantedValue (names : List String) (value : String)
  | notAnInteger (names : List String) (value : String)
  | notANumber (names : List String) (value : String)
  | notAChoice (names : List String) (value : String) (choices : List String)
  | unrecognized (words : List String)
  deriving Repr, DecidableEq

namespace GrammarError

def about (names : List String) (complaint : String) : String :=
  "argument " ++ "/".intercalate names ++ ": " ++ complaint

def message : GrammarError → String
  | ambiguous word candidates =>
    "ambiguous option: " ++ word ++ " could match " ++ ", ".intercalate candidates
  | missingValue names => about names "expected one argument"
  | unwantedValue names value => about names ("ignored explicit argument " ++ Text.quoted value)
  | notAnInteger names value => about names ("invalid int value: " ++ Text.quoted value)
  | notANumber names value => about names ("invalid float value: " ++ Text.quoted value)
  | notAChoice names value choices =>
    about names ("invalid choice: " ++ Text.quoted value ++ " (choose from " ++
      ", ".intercalate (choices.map Text.quoted) ++ ")")
  | unrecognized words => "unrecognized arguments: " ++ " ".intercalate words

end GrammarError

inductive WordClass (φ : Type)
  | positional
  /-- The two dashes that end the options. -/
  | dashes
  /-- An option, whether it is named by one dash and a letter, and the text that is attached to its name
  in the same word. -/
  | option (spec : OptionSpec φ) (short : Bool) (attached : Option (List Char))
  /-- It looks like an option and is none. -/
  | stranger

namespace Grammar

variable {φ : Type}

def named (g : Grammar φ) : List (String × OptionSpec φ) :=
  g.options.flatMap fun o => o.names.map fun n => (n, o)

def lookup? (g : Grammar φ) (name : String) : Option (OptionSpec φ) :=
  (g.named.find? fun n => n.1 == name).map Prod.snd

/-- A negative number, possibly with a decimal point; a line end behind it does not count. -/
def isNegativeNumber (word : List Char) : Bool :=
  match word with
  | '-' :: rest =>
    let body := if rest.getLast? == some '\n' then rest.dropLast else rest
    let whole := body.takeWhile Text.isDecimal
    match body.dropWhile Text.isDecimal with
    | [] => !whole.isEmpty
    | '.' :: fraction => !fraction.isEmpty && fraction.all Text.isDecimal
    | _ => false
  | _ => false

def splitEquals (word : List Char) : List Char × Option (List Char) :=
  match word.dropWhile (· != '=') with
  | [] => (word, none)
  | _ :: value => (word.takeWhile (· != '='), some value)

def isShort : List Char → Bool
  | '-' :: '-' :: _ => false
  | _ => true

/-- The ways to read a word as an option that is not named in full. A word with two dashes is the start
of a name, up to an equals sign; a word with one dash is a short name with text attached. -/
def candidates (g : Grammar φ) (word : List Char) :
    List (String × OptionSpec φ × Option (List Char)) :=
  match word with
  | '-' :: '-' :: _ =>
    let (start, value) := splitEquals word
    (g.named.filter fun n => start.isPrefixOf n.1.toList).map fun n => (n.1, n.2, value)
  | '-' :: c :: rest =>
    (g.named.filter fun n => n.1.toList = ['-', c]).map fun n => (n.1, n.2, some rest)
  | _ => []

def classify (g : Grammar φ) (word : String) : Except GrammarError (WordClass φ) :=
  let cs := word.toList
  let (start, value) := splitEquals cs
  match cs with
  | '-' :: _ :: _ =>
    match g.lookup? word, g.lookup? (String.ofList start), value with
    | some spec, _, _ => .ok (.option spec (isShort cs) none)
    | none, some spec, some v => .ok (.option spec (isShort cs) (some v))
    | none, _, _ =>
      match g.candidates cs with
      | [(_, spec, attached)] => .ok (.option spec (isShort cs) attached)
      | [] => if isNegativeNumber cs || cs.contains ' ' then .ok .positional else .ok .stranger
      | several => .error (.ambiguous word (several.map Prod.fst))
  | _ => .ok .positional

/-- Classifies all words; behind two dashes every word is positional. -/
def classifyAll (g : Grammar φ) : List String → Except GrammarError (List (String × WordClass φ))
  | [] => .ok []
  | "--" :: rest => .ok (("--", .dashes) :: rest.map fun w => (w, .positional))
  | w :: rest => do
    let c ← g.classify w
    let cs ← g.classifyAll rest
    return (w, c) :: cs

inductive Given
  /-- The option is a switch. -/
  | switch
  | value (text : String)
  /-- Two dashes are attached to the option: they end nothing there and are no value either. -/
  | blank
  deriving Repr, DecidableEq

/-- What one option word says: options with what is given with them, and an option that waits for its
value in the next word. -/
structure Expansion (φ : Type) where
  given : List (OptionSpec φ × Given) := []
  waiting : Option (OptionSpec φ) := none

def bare (spec : OptionSpec φ) : Expansion φ :=
  if spec.takesValue then { waiting := some spec } else { given := [(spec, .switch)] }

def attachedValue (text : List Char) : Given :=
  if text = ['-', '-'] then .blank else .value (String.ofList text)

/-- An option with text attached: its value, or, for a switch with a short name, further short options.
No option of the word counts if one of them is unknown. -/
def attach (g : Grammar φ) (spec : OptionSpec φ) (short : Bool) :
    List Char → Except GrammarError (Expansion φ)
  | [] =>
    if spec.takesValue then .ok { given := [(spec, .value "")] }
    else .error (.unwantedValue spec.names "")
  | c :: rest =>
    if spec.takesValue then .ok { given := [(spec, attachedValue (c :: rest))] }
    else if !short then .error (.unwantedValue spec.names (String.ofList (c :: rest)))
    else
      match g.lookup? (String.ofList ['-', c]) with
      | none => .error (.unwantedValue spec.names (String.ofList (c :: rest)))
      | some next =>
        let others := if rest.isEmpty then .ok (bare next) else attach g next true rest
        others.map fun e => { e with given := (spec, .switch) :: e.given }

def expand (g : Grammar φ) (spec : OptionSpec φ) (short : Bool) :
    Option (List Char) → Except GrammarError (Expansion φ)
  | none => .ok (bare spec)
  | some text => g.attach spec short text

structure Scan (φ : Type) where
  given : List (OptionSpec φ × Given) := []
  positional : List String := []
  unrecognized : List String := []
  fault : Option GrammarError := none

/-- Whether positional words count: not yet met, met just now, or over. -/
inductive Positionals
  | ahead
  | current
  | past
  deriving Repr, DecidableEq

namespace Positionals

def afterOption : Positionals → Positionals
  | current => past
  | p => p

end Positionals

namespace Scan

def withPositional (s : Scan φ) (word : String) : Scan φ :=
  { s with positional := word :: s.positional }

def withStranger (s : Scan φ) (word : String) : Scan φ :=
  { s with unrecognized := word :: s.unrecognized }

def withExpansion (s : Scan φ) (e : Expansion φ) : Scan φ :=
  { s with given := e.given ++ s.given }

end Scan

def scanFrom (g : Grammar φ) : Positionals → List (String × WordClass φ) → Scan φ
  | _, [] => {}
  | p, (w, .positional) :: rest =>
    if p = .past then (scanFrom g p rest).withStranger w
    else (scanFrom g .current rest).withPositional w
  | p, (w, .dashes) :: rest =>
    if p = .past then (scanFrom g p rest).withStranger w else scanFrom g .current rest
  | p, (w, .stranger) :: rest => (scanFrom g p.afterOption rest).withStranger w
  | p, (_, .option spec short attached) :: rest =>
    match g.expand spec short attached with
    | .error e => { fault := some e }
    | .ok e =>
      match e.waiting with
      | none => (scanFrom g p.afterOption rest).withExpansion e
      | some waiting =>
        match rest with
        | (v, .positional) :: others =>
          (scanFrom g p.afterOption others).withExpansion
            { e with given := e.given ++ [(waiting, .value v)] }
        | _ => { fault := some (.missingValue waiting.names) }

/-- Reads the words of a command line. A word that cannot be classified spoils the whole line. -/
def scan (g : Grammar φ) (words : List String) : Scan φ :=
  match g.classifyAll words with
  | .error e => { fault := some e }
  | .ok classified => scanFrom g (if g.positional then .ahead else .past) classified

end Grammar

end LockAudit
