import LockAudit.Program.Consistency

/-! # Programs as documents

A program is read from a JSON document in one pass: for each instance its blocks, each with its
statements and then its terminator, and then its names. The first fault that this order meets is the one
reported.
-/

namespace LockAudit

inductive DocumentFault
  /-- A required field is missing. -/
  | missingField (name : String)
  /-- A value cannot be used as the object or list that is wanted. -/
  | wrongType
  /-- A value from which fields are to be taken is no object, or a location is no text. -/
  | notAnObject
  | unknownStatement (op : Json)
  | unknownTerminator (kind : Json)
  | unknownGuardKind (kind : Json)
  /-- A call has both a callee and a signature, or neither. -/
  | callForm (block : Nat)
  | location (cause : NumeralError)
  | duplicateInstance (id : Name)
  deriving Repr, DecidableEq

namespace DocumentFault

def invalidText? : DocumentFault → Option String
  | unknownStatement op => some ("unknown statement op " ++ op.shown)
  | unknownTerminator kind => some ("unknown terminator kind " ++ kind.shown)
  | unknownGuardKind kind => some (kind.shown ++ " is not a valid GuardKind")
  | callForm block => some (s!"bb{block}: call needs exactly one of callee/signature")
  | location cause => some cause.message
  | _ => none

def detail (f : DocumentFault) : String :=
  match f.invalidText? with
  | some text => "ValueError(" ++ Text.quoted text ++ ")"
  | none =>
    match f with
    | missingField name => "KeyError(" ++ Text.quoted name ++ ")"
    | _ => "TypeError"

end DocumentFault

namespace Document

abbrev Part (α : Type) := Except DocumentFault α

def required (name : String) : Json → Part Json
  | .obj fields =>
    match Json.field? name fields with
    | some v => .ok v
    | none => .error (.missingField name)
  | _ => .error .wrongType

def optional (name : String) : Json → Part (Option Json)
  | .obj fields => .ok (Json.field? name fields)
  | _ => .error .notAnObject

def elements : Json → Part (List Json)
  | .arr items => .ok items
  | .str s => .ok ((Text.symbols s.toList).map fun c => .str c.text)
  | .obj fields => .ok (fields.map fun f => .str f.1)
  | _ => .error .wrongType

def optionalOr (name : String) (absent : Json) (raw : Json) : Part Json := do
  return (← optional name raw).getD absent

def flag (name : String) (absent : Bool) (raw : Json) : Part Bool := do
  return (← optionalOr name (.bool absent) raw).truthy

/-- A location; a value that counts as false leaves it unknown. -/
def location (raw : Json) : Part Location := do
  match ← optional "location" raw with
  | none => .ok .unknown
  | some v =>
    if !v.truthy then .ok .unknown
    else match v with
      | .str s => (Location.parse s).mapError .location
      | _ => .error .notAnObject

def lock (raw : Json) : Part Lock := do
  let lockType ← optionalOr "lock_type" (.str "") raw
  match ← optional "static" raw with
  | some name => return { site := .static, name, lockType }
  | none =>
    match ← optional "field" raw with
    | some name =>
      let receiver ← optionalOr "receiver" .null raw
      let receiverType ← optionalOr "receiver_type" .null raw
      return { site := .field, name, receiver, receiverType, lockType }
    | none => return { site := .heap, lockType }

def guardKind (raw : Json) : Part GuardKind := do
  match ← optional "kind" raw with
  | none => return .mutex
  | some v =>
    match v with
    | .str s =>
      match GuardKind.ofName? s with
      | some k => return k
      | none => throw (.unknownGuardKind v)
    | _ => throw (.unknownGuardKind v)

def statement (raw : Json) : Part Statement := do
  let op ← required "op" raw
  match op with
  | .str "acquire" =>
    let guard ← required "guard" raw
    let lock ← lock (← required "lock" raw)
    let kind ← guardKind raw
    let location ← location raw
    return .acquire guard lock kind location (← optionalOr "raii" (.bool true) raw)
  | .str "release" =>
    let guard ← required "guard" raw
    return .release guard (← location raw)
  | .str "scope_exit" =>
    let locals ← elements (← required "locals" raw)
    return .scopeExit locals (← location raw)
  | _ => throw (.unknownStatement op)

def call (index : Nat) (raw : Json) : Part Call := do
  if (← optional "callee" raw).isSome = (← optional "signature" raw).isSome then
    throw (.callForm index)
  return {
    site := ← optionalOr "callsite" (.str s!"bb{index}") raw
    callee := ← optionalOr "callee" .null raw
    signature := ← optionalOr "signature" .null raw
    method := ← optionalOr "method" .null raw
    target := (← optional "target" raw).filter (· != .null)
    destination := ← optionalOr "destination" .null raw
    location := ← location raw }

/-- The terminator of a block with a given number; a block without one returns. -/
def terminator (index : Nat) : Option Json → Part Terminator
  | none => .ok (.ret .null .unknown)
  | some .null => .ok (.ret .null .unknown)
  | some raw => do
    let kind ← required "kind" raw
    match kind with
    | .str "goto" => return .goto (← elements (← required "targets" raw))
    | .str "call" => return .call (← call index raw)
    | .str "return" =>
      let value ← optionalOr "value" .null raw
      return .ret value (← location raw)
    | _ => throw (.unknownTerminator kind)

def block (index : Nat) (raw : Json) : Part Block := do
  let statements ← match ← optional "statements" raw with
    | none => pure []
    | some v => (← elements v).mapM statement
  return { statements, terminator := ← terminator index (← optional "terminator" raw) }

def blocks : Nat → List Json → Part (List Block)
  | _, [] => .ok []
  | index, raw :: rest => do
    let b ← block index raw
    return b :: (← blocks (index + 1) rest)

def body (raw : Json) : Part (Option Body) := do
  match ← optional "body" raw with
  | none => return none
  | some .null => return none
  | some v => return some { blocks := ← blocks 0 (← elements (← required "blocks" v)) }

def functionInstance (raw : Json) : Part Instance := do
  let body ← body raw
  let id ← required "id" raw
  let defPath ← optionalOr "def_path" id raw
  let typeArgs ← match ← optional "type_args" raw with
    | none => pure []
    | some v => elements v
  let signature ← optionalOr "signature" (.str "") raw
  return { id, defPath, typeArgs, signature, method := ← optionalOr "method" .null raw, body }

/-- Adds an instance. An instance of the same name is a fault where names must be unique, and else takes
the place of the earlier one. -/
def addInstance (unique : Bool) (known : List Instance) (i : Instance) : Part (List Instance) :=
  if !i.id.isKey then .error .wrongType
  else if known.any fun k => k.id.same i.id then
    if unique then .error (.duplicateInstance i.id)
    else .ok (known.map fun k => if k.id.same i.id then i else k)
  else .ok (known ++ [i])

/-- Instances by name. Where names must be unique, each is added as soon as it is read, and else when all
have been read. -/
def instances (unique : Bool) (raw : List Json) : Part (List Instance) := do
  if unique then raw.foldlM (fun known r => do addInstance true known (← functionInstance r)) []
  else (← raw.mapM functionInstance).foldlM (addInstance false) []

/-- The program of a document, whether it is consistent or not. Where it names no roots, its bodies must
have an order. -/
def program (unique : Bool) (raw : Json) : Part Program := do
  let instances ← instances unique (← elements (← required "instances" raw))
  let unit ← optionalOr "unit" (.str "") raw
  let roots ← match ← optional "roots" raw with
    | none => pure []
    | some v => elements v
  let codegen ← flag "codegen" true raw
  let buildScript ← flag "build_script" false raw
  if roots.isEmpty && !haveOrder (Program.bodied instances) then throw .wrongType
  return Program.make unit instances roots codegen buildScript

end Document

inductive ProgramError
  | malformed (fault : DocumentFault)
  | inconsistent (cause : Inconsistency)
  deriving Repr, DecidableEq

namespace ProgramError

def message : ProgramError → String
  | malformed (.duplicateInstance id) => "duplicate instance id: " ++ id.display
  | malformed fault => "malformed program model: " ++ fault.detail
  | inconsistent cause => cause.message

/-- Whether a fault is told to the user as one of the document. A value without fields where an object is
wanted, and some inconsistencies, end the analysis. -/
def isReported : ProgramError → Bool
  | malformed .notAnObject => false
  | malformed _ => true
  | inconsistent cause => cause.isReported

end ProgramError

def Program.ofDocument (raw : Json) : Except ProgramError Program := do
  let p ← (Document.program true raw).mapError .malformed
  p.check.mapError .inconsistent
  return p

end LockAudit
