import LockAudit.Log
import LockAudit.Program.Basic

/-! # Call graphs

The nodes are the instances of a program. A direct call resolves to its callee if that is a node, and an
indirect one to every instance with the signature of the call and, where the call names a method, that
method. Each edge is keyed by the call site it comes from, or by a number where the site has no name.
-/

namespace LockAudit

structure CallEdge where
  caller : Name
  /-- The callee as the first call of it by the caller names it. -/
  callee : Name
  site : Name
  indirect : Bool
  location : Location
  deriving Repr, DecidableEq, Inhabited

namespace CallEdge

def sameEnds (a b : CallEdge) : Bool :=
  a.caller.same b.caller && a.callee.same b.callee

def sameKey (a b : CallEdge) : Bool :=
  a.sameEnds b && a.site.same b.site

end CallEdge

structure Resolution where
  caller : Name
  call : Call
  callees : List Name
  deriving Repr, DecidableEq, Inhabited

namespace Resolution

def site (r : Resolution) : Name :=
  r.call.site

def place (r : Resolution) : Name × Name :=
  (r.caller, r.site)

/-- Nothing is known of where an indirect call leads. -/
def isUnresolved (r : Resolution) : Bool :=
  r.call.isIndirect && r.callees.isEmpty

def edges (r : Resolution) : List CallEdge :=
  r.callees.map fun callee =>
    { caller := r.caller, callee, site := r.site, indirect := r.call.isIndirect,
      location := r.call.location }

def log (r : Resolution) : List LogRecord :=
  if !r.callees.isEmpty then []
  else
    let message :=
      if r.call.isIndirect then
        r.caller.display ++ ": no candidate for indirect call at " ++ r.site.display ++
          " (" ++ r.call.signature.display ++ ")"
      else r.caller.display ++ ": dropping call to unknown " ++ r.call.callee.display
    [{ level := .debug, source := "lockguard.callgraph", message }]

end Resolution

structure CallGraph where
  /-- The nodes in ascending order of their names. -/
  instances : List Instance
  /-- Each caller, callee and call site once. -/
  edges : List CallEdge
  /-- The callers and call sites of the indirect calls that lead nowhere, each once. -/
  unresolved : List (Name × Name)
  /-- The callees of each caller and call site. -/
  callTable : List ((Name × Name) × List Name)
  deriving Repr, DecidableEq, Inhabited

namespace CallGraph

def samePlace (a b : Name × Name) : Bool :=
  a.1.same b.1 && a.2.same b.2

def accepts (c : Call) (i : Instance) : Bool :=
  i.signature.truthy && c.signature.same i.signature &&
    (c.method == .null || i.method.equals c.method)

def resolve (nodes : List Instance) (c : Call) : List Name :=
  if c.isIndirect then (nodes.filter (accepts c)).map Instance.id
  else if nodes.any fun i => i.id.same c.callee then [c.callee]
  else []

def resolutions (nodes : List Instance) : List Resolution :=
  nodes.flatMap fun caller => match caller.body with
    | none => []
    | some body => body.calls.map fun call =>
      { caller := caller.id, call, callees := resolve nodes call }

/-- The number that keys a further edge at a site without a name, given the sites of the edges between the
same nodes: the count of these, or the next number that is free. -/
def nextSite (sites : List Name) : Name :=
  let numbers := (List.range (sites.length + 1)).map fun i => Json.ofNat (sites.length + i)
  (numbers.find? fun n => !sites.any (Name.same n)).getD .null

/-- Adds an edge; one with the same key takes over what the new one says of the call. -/
def addEdge (edges : List CallEdge) (e : CallEdge) : List CallEdge :=
  let parallel := edges.filter e.sameEnds
  let callee := match parallel with
    | first :: _ => first.callee
    | [] => e.callee
  let site := if e.site == .null then nextSite (parallel.map CallEdge.site) else e.site
  let e := { e with callee, site }
  if parallel.any e.sameKey then
    edges.map fun k => if k.sameKey e then { e with site := k.site } else k
  else edges ++ [e]

/-- Enters the callees of a call site; a later call at the same site replaces an earlier one. -/
def enterCall (table : List ((Name × Name) × List Name)) (r : Resolution) :
    List ((Name × Name) × List Name) :=
  if table.any fun t => samePlace t.1 r.place then
    table.map fun t => if samePlace t.1 r.place then (t.1, r.callees) else t
  else table ++ [(r.place, r.callees)]

def build (instances : List Instance) : CallGraph :=
  let nodes := orderOn Instance.id instances
  let calls := resolutions nodes
  { instances := nodes
    edges := (calls.flatMap Resolution.edges).foldl addEdge []
    unresolved := ((calls.filter Resolution.isUnresolved).map Resolution.place).eraseDupsBy samePlace
    callTable := calls.foldl enterCall [] }

def buildLog (instances : List Instance) : List LogRecord :=
  let g := build instances
  (resolutions g.instances).flatMap Resolution.log ++
    [{ level := .debug, source := "lockguard.callgraph",
       message := s!"call graph: {g.instances.length} instances, {g.edges.length} edges, " ++
         s!"{g.unresolved.length} unresolved indirect calls" }]

def instance? (g : CallGraph) (id : Name) : Option Instance :=
  g.instances.find? fun i => i.id.same id

def contains (g : CallGraph) (id : Name) : Bool :=
  (g.instance? id).isSome

def callees (g : CallGraph) (caller site : Name) : List Name :=
  match g.callTable.find? fun t => samePlace t.1 (caller, site) with
  | some t => t.2
  | none => []

def isUnresolved (g : CallGraph) (caller site : Name) : Bool :=
  g.unresolved.any (samePlace (caller, site))

/-! ### Instances without a graph -/

inductive Fault
  /-- The instances have no order. -/
  | unordered
  /-- An instance has null for a name. -/
  | nullNode
  /-- A name that has to be looked up is no key. -/
  | unkeyed
  deriving Repr, DecidableEq

namespace Fault

def message : Fault → String
  | unordered => "the instances cannot be put in order"
  | nullNode => "None cannot be a node"
  | unkeyed => "a name cannot be looked up"

end Fault

def callIsKeyed (c : Call) : Bool :=
  c.site.isKey && (if c.isIndirect then c.signature.isKey else c.callee.isKey)

def instanceIsKeyed (i : Instance) : Bool :=
  (!i.signature.truthy || i.signature.isKey) &&
    i.body.all fun b => b.calls.all callIsKeyed

def fault? (instances : List Instance) : Option Fault :=
  if !haveOrder (instances.map Instance.id) then some .unordered
  else if instances.any fun i => i.id == .null then some .nullNode
  else if !instances.all instanceIsKeyed then some .unkeyed
  else none

def ofInstances (instances : List Instance) : Except Fault CallGraph :=
  match fault? instances with
  | some f => .error f
  | none => .ok (build instances)

end CallGraph

end LockAudit
