import PointsTo.CallGraph
import PointsTo.Taint.Config
import PointsTo.Taint.Marks

/-!
Flows of taint into sinks, read off the facts at the end of a run.
-/
namespace PointsTo

namespace Facts

/-- The objects at a place: those of a variable in all contexts, or those inside them. -/
def objsAt (f : Facts) (v : VarId) (kind : IndexKind) : List CsObjId :=
  let held := (f.elements.varsOf v).flatMap fun p => match f.elements.pts? p with
    | some set => set.toList
    | none => []
  let inside (pointer : CsObjId → Pointer) : List CsObjId := held.flatMap fun o =>
    match (f.elements.findPointer? (pointer o)).bind f.elements.pts? with
    | some set => set.toList
    | none => []
  match kind with
  | .var => held
  | .array => inside .element
  | .field g => inside fun o => .field o g

def callSitesOf (f : Facts) (m : MethodId) : List StmtRef :=
  f.calls.edges.filterMap fun e =>
    if e.kind ≠ .other ∧ (f.elements.method? e.callee).map (·.2) = some m then
      (f.elements.site? e.site).map (·.2)
    else none

/-- The invocations in reachable methods that name a method, whether a call was found or not. -/
def namedSitesOf (f : Facts) (p : Program) (m : MethodId) : List StmtRef :=
  f.calls.reachable.flatMap fun cs =>
    match f.elements.method? cs with
    | none => []
    | some (_, caller) => (p.stmtRefs caller).filterMap fun (site, stmt) =>
      match stmt.invoke? with
      | some call => if p.resolve? call.target = some m then some site else none
      | none => none

end Facts

namespace TaintConfig

def sinkSites (c : TaintConfig) (p : Program) (f : Facts) (s : Sink) : List StmtRef :=
  f.callSitesOf s.method ++ if c.callSiteMode then f.namedSitesOf p s.method else []

def flowsAt (p : Program) (f : Facts) (marks : Marks) (s : Sink) (site : StmtRef) :
    List TaintFlow :=
  match (p.invoke? site).bind fun call => s.index.index.callVar? call with
  | none => []
  | some v => (f.objsAt v s.index.kind).filterMap fun o =>
    ((f.obj? o).bind marks.point?).map fun source => ⟨source, ⟨site, s.index⟩⟩

/-- All flows into sinks, each once, in order. -/
def flows (c : TaintConfig) (p : Program) (f : Facts) (marks : Marks) : List TaintFlow :=
  sortedBy TaintFlow.key (c.activeSinks.flatMap fun s =>
    (c.sinkSites p f s).eraseDups.flatMap fun site => flowsAt p f marks s site).eraseDups

end TaintConfig

end PointsTo
