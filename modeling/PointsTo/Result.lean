import PointsTo.MethodGraph
import PointsTo.Registry
import PointsTo.Solver.Basic
import PointsTo.Text.Quoted

/-!
The result of a run, and questions to it. Answers are about variables, fields and objects without
contexts, and list objects in ascending order.
-/
namespace PointsTo

structure Result where
  program : Program
  selector : String
  facts : Facts
  stats : Stats
  chain : Chain

namespace Result

def obj? (r : Result) (o : ObjId) : Option Obj := r.facts.heap.get? o

/-- The objects of points-to sets without their contexts. -/
def objsOf (r : Result) (sets : List ObjSet) : List ObjId :=
  (ObjSet.ofList (sets.flatMap fun set => set.toList.filterMap fun o =>
    (r.facts.elements.obj? o).map (·.2))).toList

def pointsTo (r : Result) (v : VarId) : List ObjId :=
  r.objsOf ((r.facts.elements.varsOf v).filterMap r.facts.elements.pts?)

def pointerSet? (r : Result) (p : Pointer) : Option ObjSet :=
  (r.facts.elements.findPointer? p).bind r.facts.elements.pts?

def staticFieldPointsTo (r : Result) (f : FieldId) : List ObjId :=
  r.objsOf (r.pointerSet? (.static f)).toList

/-- The handles of an object under all its heap contexts. -/
def underContexts (r : Result) (o : ObjId) : List CsObjId :=
  r.facts.elements.objs.items.toList.zipIdx.filterMap fun ((_, obj), id) =>
    if obj = o then some id else none

def fieldPointsTo (r : Result) (o : ObjId) (f : FieldId) : List ObjId :=
  r.objsOf ((r.underContexts o).filterMap fun base => r.pointerSet? (.field base f))

def elementsPointTo (r : Result) (o : ObjId) : List ObjId :=
  r.objsOf ((r.underContexts o).filterMap fun array => r.pointerSet? (.element array))

def mayAlias (r : Result) (a b : VarId) : Bool :=
  (r.pointsTo b).any fun o => (r.pointsTo a).contains o

/-- The variables under contexts that were met, in order of creation. -/
def csVars (r : Result) : List (ContextId × VarId) :=
  r.facts.elements.allPointers.filterMap fun (_, p) => p.var?

def vars (r : Result) : List VarId := ascending (r.csVars.map (·.2))

def methodGraph (r : Result) : MethodGraph := MethodGraph.ofFacts r.facts

def reachableMethods (r : Result) : List MethodId := ascending r.methodGraph.methods

def exceptions? (r : Result) : Option Exceptions :=
  r.chain.findSome? fun
    | .exceptions s => some s
    | _ => none

def warnings (r : Result) : List Warning :=
  r.chain.flatMap fun
    | .warnings s => s.sorted
    | _ => []

def flows? (r : Result) : Option (List TaintFlow) :=
  r.chain.findSome? fun
    | .taint s => some (s.flows r.program r.facts)
    | _ => none

/-- The log of a script, if one was run. -/
def log (r : Result) : List LogEntry :=
  r.chain.flatMap fun
    | .script s => s.finalLog
    | _ => []

def keys (r : Result) : List String :=
  (r.chain.filterMap fun
    | .exceptions _ => some "exception"
    | .script _ => some "probe"
    | .warnings _ => some "soundness-warnings"
    | .taint _ => some "taint-flows"
    | _ => none).eraseDups.mergeSort (· ≤ ·)

def dump (r : Result) : String :=
  dumpRecord "PointerAnalysisResult" [
    ("selector", Text.quote r.selector),
    ("objects", toString r.facts.heap.size),
    ("contexts", toString r.facts.contexts.size),
    ("reachable_methods", toString r.methodGraph.methods.length),
    ("call_edges", toString r.facts.calls.edges.length),
    ("results", "\x7b" ++ Text.join ", " (r.keys.map Text.quote) ++ "\x7d")]

/-- The casts in reachable methods whose operand may be of another type. -/
def mayFailCasts (r : Result) : List StmtRef :=
  r.reachableMethods.flatMap fun m => (r.program.stmtRefs m).filterMap fun (site, stmt) =>
    match stmt with
    | .cast _ v ty =>
      if (r.pointsTo v).any fun o => (r.obj? o).any fun obj => !r.program.isSubtype obj.ty ty then
        some site
      else none
    | _ => none

end Result

end PointsTo
