import PointsTo.Distinct
import PointsTo.Facts

/-!
The call graph between methods, without contexts.
-/
namespace PointsTo

structure MethodEdge where
  kind : CallKind
  site : StmtRef
  callee : MethodId
  deriving DecidableEq

def MethodEdge.key (e : MethodEdge) : List Nat :=
  [e.kind.rank, e.site.method, e.site.index, e.callee]

structure MethodGraph where
  methods : List MethodId
  entries : List MethodId
  /-- The edges, each once and in order. -/
  edges : List MethodEdge

namespace MethodGraph

/-- Forgets the contexts of a call graph. Methods at the ends of an edge count as methods of the
graph, also if they were not found reachable. -/
def ofFacts (f : Facts) : MethodGraph :=
  let method? (m : CsMethodId) : Option MethodId := (f.elements.method? m).map (·.2)
  let edges := f.calls.edges.filterMap fun e =>
    match f.elements.site? e.site, method? e.callee with
    | some (_, site), some callee => some (MethodEdge.mk e.kind site callee)
    | _, _ => none
  { methods := (f.calls.reachable.filterMap method?
      ++ edges.flatMap fun e => [e.site.method, e.callee]).eraseDups
    entries := (f.calls.entries.filterMap method?).eraseDups
    edges := sortedBy MethodEdge.key edges.eraseDups }

def contains (g : MethodGraph) (m : MethodId) : Bool := g.methods.contains m

def calleesOf (g : MethodGraph) (m : MethodId) : List MethodId :=
  ascending (g.edges.filterMap fun e => if e.site.method = m then some e.callee else none)

def callersOf (g : MethodGraph) (m : MethodId) : List MethodId :=
  ascending (g.edges.filterMap fun e => if e.callee = m then some e.site.method else none)

def calleesAt (g : MethodGraph) (site : StmtRef) : List MethodId :=
  ascending (g.edges.filterMap fun e => if e.site = site then some e.callee else none)

def leads (g : MethodGraph) (source target : MethodId) : Bool :=
  g.contains source && (closeUnder g.calleesOf g.methods.length [source]).contains target

end MethodGraph

end PointsTo
