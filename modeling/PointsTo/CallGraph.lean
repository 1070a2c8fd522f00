import PointsTo.Elements

/-!
The call graph under contexts: entry methods, reachable methods in order of discovery, and call
edges from call sites to methods.
-/
namespace PointsTo

inductive CallKind
  | virtual | interface | special | static | dynamic
  /-- Made by a handler; no arguments or results pass over it. -/
  | other
  deriving DecidableEq

namespace CallKind

def ofInvoke : InvokeKind → CallKind
  | .virtual => virtual
  | .interface => interface
  | .special => special
  | .static => static
  | .dynamic => dynamic

def all : List CallKind := [virtual, interface, special, static, dynamic, other]

def name : CallKind → String
  | virtual => "virtual"
  | interface => "interface"
  | special => "special"
  | static => "static"
  | dynamic => "dynamic"
  | other => "other"

def ofName? (name : String) : Option CallKind := all.find? fun k => k.name == name

def rank (k : CallKind) : Nat := all.idxOf k

end CallKind

structure CallEdge where
  kind : CallKind
  site : CsSiteId
  callee : CsMethodId
  deriving DecidableEq

structure CallGraph where
  entries : List CsMethodId := []
  reachable : List CsMethodId := []
  edges : List CallEdge := []

namespace CallGraph

def addEntry (g : CallGraph) (m : CsMethodId) : CallGraph :=
  if g.entries.contains m then g else { g with entries := g.entries ++ [m] }

def reaches (g : CallGraph) (m : CsMethodId) : Bool := g.reachable.contains m

/-- Marks a method reachable; the answer says whether this is new. -/
def addReachable (g : CallGraph) (m : CsMethodId) : CallGraph × Bool :=
  if g.reaches m then (g, false) else ({ g with reachable := g.reachable ++ [m] }, true)

/-- Records an edge; the answer says whether it is new. -/
def addEdge (g : CallGraph) (e : CallEdge) : CallGraph × Bool :=
  if g.edges.contains e then (g, false) else ({ g with edges := g.edges ++ [e] }, true)

def edgesOutOf (g : CallGraph) (s : CsSiteId) : List CallEdge := g.edges.filter fun e => e.site == s

def edgesInto (g : CallGraph) (m : CsMethodId) : List CallEdge :=
  g.edges.filter fun e => e.callee == m

end CallGraph

end PointsTo
