import PointsTo.Document.Findings
import PointsTo.Report

/-!
Reports as documents. Everything is written by its number; lists of edges are in the order of the
report, or in the order of discovery where a report traces the run.
-/
namespace PointsTo

def ElemNo.toDoc : ElemNo → Doc
  | call s => .list [.str "call", .ofNat s.method, .ofNat s.index]
  | obj o => .list [.str "obj", .ofNat o]
  | type c => .list [.str "type", .ofNat c]

namespace CsObjNo

def toDoc (o : CsObjNo) : Doc := .ofNats [o.1, o.2]

def listDoc (os : List CsObjNo) : Doc := .list (os.map toDoc)

end CsObjNo

def PointerNo.toDoc : PointerNo → Doc
  | var v context => .list [.str "v", .ofNat v, .ofNat context]
  | field o f => .list [.str "f", CsObjNo.toDoc o, .ofNat f]
  | element o => .list [.str "a", CsObjNo.toDoc o]
  | static f => .list [.str "s", .ofNat f]

namespace CallNo

def toDoc (c : CallNo) : Doc := .list (.str c.kind.name :: c.numbers.map .ofNat)

def listDoc (cs : List CallNo) : Doc := .list ((cs.mergeSort le).map toDoc)

end CallNo

def FlowExtra.toDoc : FlowExtra → Doc
  | nothing => .null
  | cast ty => .str ty
  | info origin key transfer => .list [.str origin, .ofNat key, .bool transfer]

def FlowNo.toDoc (e : FlowNo) : Doc :=
  .list [.ofNat e.source, .ofNat e.target, .str e.kind.name, e.extra.toDoc]

namespace LogEntry

def toDoc (f : Facts) (n : Numbering) : LogEntry → Doc
  | started => .list [.str "start"]
  | arrived p delta size edges contexts =>
    .list [.str "pts", .ofNat (n.pointer p), CsObjNo.listDoc (n.csObjs f delta),
      .ofNats [size, edges, contexts]]
  | method m => .list [.str "method", .ofNat m]
  | stmt s => .list [.str "stmt", .ofNat s.method, .ofNat s.index]
  | csMethod m => .list [.str "cs_method", .ofOption (fun (c, m) => .ofNats [c, m]) (n.csMethod? f m)]
  | unresolved o c s =>
    .list [.str "unresolved", .ofOption (fun o => CsObjNo.toDoc (n.csObj f o)) o,
      .ofNat (n.context c), .ofNats [s.method, s.index]]
  | called e => .list [.str "edge", .ofOption CallNo.toDoc (n.callNo? f e)]
  | phase k => .list [.str "phase", .ofNat k]
  | removed k => .list [.str "removed", .ofNat k]
  | finished => .list [.str "finish"]

end LogEntry

namespace Result

def countsDoc (r : Result) : Doc :=
  let f := r.facts
  .record [
    ("reachable", .ofNat f.calls.reachable.length),
    ("call_edges", .ofNat f.calls.edges.length),
    ("ci_methods", .ofNat r.methodGraph.methods.length),
    ("cs_objs", .ofNat f.elements.objs.size),
    ("pointers", .ofNat f.elements.pointers.size),
    ("pfg", .ofNat f.flow.size),
    ("cs_methods", .ofNats [f.elements.methods.size, f.elements.methods.size]),
    ("contexts", .list [.ofNat f.contexts.size, .bool (f.contexts.size == 0)])]

def flowsDoc (r : Result) (flows : List TaintFlow) : Doc :=
  .list (flows.map fun t => .list [.str (t.describe r.program), t.source.toDoc, .str t.sink.text])

def report (r : Result) (n : Numbering) : List (String × Doc) :=
  let g := r.methodGraph
  [("objs", .list (r.objTexts.map .str)),
    ("ctxs", .list ((r.contextNos n).map fun c => .list (c.map ElemNo.toDoc))),
    ("ptrs", .list ((r.pointerNos n).map fun (p, set) =>
      .list [p.toDoc, .ofOption CsObjNo.listDoc set])),
    ("selector", .str r.selector),
    ("keys", .list (r.keys.map .str)),
    ("max_depth", .ofNat r.facts.contexts.maxDepth),
    ("reach", .ofNats r.reachableMethods),
    ("entries", .ofNats (ascending g.entries)),
    ("calls", .list (g.edges.map fun e =>
      .list [.str e.kind.name, .ofNat e.site.method, .ofNat e.site.index, .ofNat e.callee])),
    ("vars", .list (r.vars.map fun v => .list [.ofNat v, .ofNats (n.objsOf (r.pointsTo v))])),
    ("cs_reach", .list ((sortedBy (fun (c, m) => [c, m]) (r.reachedNos n)).map fun (c, m) =>
      .ofNats [c, m])),
    ("cs_calls", CallNo.listDoc (r.callNos n)),
    ("pfg", .list (((r.flowNos n).mergeSort FlowNo.le).map FlowNo.toDoc)),
    ("counts", r.countsDoc),
    ("thrown", .list ((r.thrownNos n).map fun (s, os) =>
      .list [.ofNat s.method, .ofNat s.index, .ofNats os])),
    ("uncaught", .list ((r.uncaughtNos n).map fun (m, os) => .list [.ofNat m, .ofNats os])),
    ("warnings", .list (r.warnings.map Warning.toDoc)),
    ("casts", .list (r.mayFailCasts.map fun s => .ofNats [s.method, s.index]))]
    ++ (r.flows?.map fun flows => ("flows", r.flowsDoc flows)).toList

def trace (r : Result) (n : Numbering) : Doc :=
  let f := r.facts
  .record [
    ("objs", .ofNats ((List.range f.heap.size).map n.obj)),
    ("ctxs", .ofNats ((List.range f.contexts.size).map n.context)),
    ("ptrs", .ofNats ((List.range f.elements.pointers.size).map n.pointer)),
    ("entries", .ofNats r.methodGraph.entries),
    ("cs_reach", .list ((r.reachedNos n).map fun (c, m) => .ofNats [c, m])),
    ("cs_calls", .list ((r.callNos n).map CallNo.toDoc)),
    ("pfg", .list ((r.flowNos n).map FlowNo.toDoc)),
    ("cs_objs", .list ((List.range f.elements.objs.size).map fun o => CsObjNo.toDoc (n.csObj f o))),
    ("stats", .record [
      ("iterations", .ofNat r.stats.iterations), ("phases", .ofNat r.stats.phases),
      ("commands", .ofNat r.stats.commands), ("filtered_out", .ofNat r.stats.filteredOut)]),
    ("events", .list (r.log.map (LogEntry.toDoc f n)))]

end Result

end PointsTo
