import LockAudit.BitRows
import LockAudit.CallGraph.Basic

/-! # Reachability in call graphs

The instances that can be entered from given ones, and the recursive components: the sets of instances
that lie on call cycles and reach each other. Both are told for any descendants and any strongly connected
components; a search in rounds and a closure of bit rows give those of the graph.
-/

namespace LockAudit.CallGraph

def among (id : Name) (names : List Name) : Bool :=
  names.any id.same

def withNames (names new : List Name) : List Name :=
  names ++ (new.filter fun id => !among id names).eraseDupsBy Name.same

/-- Adds a further root and its descendants. What is reached already is closed under calls, so a root
among it adds nothing. -/
def addReached (g : CallGraph) (descendants : Name → List Name) (reached : List Name) (root : Name) :
    List Name :=
  if !g.contains root || among root reached then reached
  else withNames reached (root :: descendants root)

/-- The nodes among the roots and their descendants, in ascending order, where the descendants of a node
are as given. -/
def reachableBy (g : CallGraph) (descendants : Name → List Name) (roots : List Name) : List Name :=
  orderOn id (roots.foldl (g.addReached descendants) [])

/-! ### Descendants -/

def successors (g : CallGraph) (id : Name) : List Name :=
  (g.edges.filter fun e => e.caller.same id).map CallEdge.callee

def beyond (g : CallGraph) (reached border : List Name) : List Name :=
  ((border.flatMap g.successors).filter fun id => !among id reached).eraseDupsBy Name.same

/-- Adds successors until nothing is added, in at most the given number of rounds. Only the instances in
`border`, which the round before has added, can have successors that are not reached. -/
def closure (g : CallGraph) : Nat → List Name → List Name → List Name
  | 0, reached, _ => reached
  | rounds + 1, reached, border =>
    match g.beyond reached border with
    | [] => reached
    | new => closure g rounds (reached ++ new) new

/-- A node and all that can be reached from it, each by the name under which it is first met. There are no
more rounds than nodes, since each but the last adds one. -/
def reach (g : CallGraph) (root : Name) : List Name :=
  g.closure g.instances.length [root] [root]

def descendants (g : CallGraph) (root : Name) : List Name :=
  (g.reach root).filter fun id => !root.same id

def reachableFrom (g : CallGraph) (roots : List Name) : List Name :=
  g.reachableBy g.descendants roots

/-! ### Recursion -/

def callsItself (g : CallGraph) (id : Name) : Bool :=
  g.edges.any fun e => e.caller.same id && e.callee.same id

/-- Of the strongly connected components, those with more than one member or with a member that calls
itself. Each is ascending, and they are in ascending order. -/
def recursiveAmong (g : CallGraph) (components : List (List Name)) : List (List Name) :=
  sortOn id ((components.map (sortOn id)).filter fun members =>
    1 < members.length || members.head?.any g.callsItself)

/-- A node with its position and the row of the nodes that can be reached from it by at least one call. -/
structure Reaching where
  id : Name
  position : Nat
  row : Nat

def Reaching.leadsTo (a b : Reaching) : Bool :=
  a.row.testBit b.position

def Reaching.joins (a b : Reaching) : Bool :=
  a.position == b.position || a.leadsTo b && b.leadsTo a

def reachings (g : CallGraph) : List Reaching :=
  let ids := g.instances.map Instance.id
  let edges := g.edges.map fun e => (e.caller.canonical, e.callee.canonical)
  let rows := (BitRows.ofEdges (ids.map Json.canonical) edges).closure
  (ids.zip rows).zipIdx.map fun n => { id := n.1.1, position := n.2, row := n.1.2 }

def components (g : CallGraph) : List (List Name) :=
  let nodes := g.reachings
  (nodes.map fun a => (nodes.filter a.joins).map Reaching.id).eraseDups

def recursiveComponents (g : CallGraph) : List (List Name) :=
  g.recursiveAmong g.components

/-! ### Names on a tour

A node may be named differently by its callers, where the names are the same. -/

/-- A depth-first tour of the nodes ahead: the nodes met, latest first, each by the name under which it
is first met. -/
def tourFrom (g : CallGraph) : Nat → List Name → List Name → List Name
  | 0, met, _ => met
  | _ + 1, met, [] => met
  | steps + 1, met, id :: ahead =>
    if among id met then tourFrom g steps met ahead
    else tourFrom g steps (id :: met) (g.successors id ++ ahead)

/-- The nodes in the order of a depth-first tour of the whole graph, which looks at each node and each
edge once. -/
def tour (g : CallGraph) : List Name :=
  (g.tourFrom (g.instances.length + g.edges.length) [] (g.instances.map Instance.id)).reverse

def recursiveComponentsOnTour (g : CallGraph) : List (List Name) :=
  let tour := g.tour
  g.recursiveComponents.map fun c => c.map fun id => (tour.find? id.same).getD id

end LockAudit.CallGraph
