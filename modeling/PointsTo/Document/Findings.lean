import PointsTo.Document.Program
import PointsTo.Handlers.Warnings
import PointsTo.Taint.Flow

/-!
Warnings and taint flows as documents.
-/
namespace PointsTo

def Warning.toDoc (w : Warning) : Doc :=
  .record [("call_site", w.site.toDoc), ("callee", .str w.callee),
    ("receiver_type", .ofOption .str w.receiverTy)]

def Index.toDoc : Index → Doc
  | base => .str "Base"
  | result => .str "Result"
  | arg i => .variant "Arg" (.ofNat i)

def IndexKind.toDoc : IndexKind → Doc
  | var => .str "Var"
  | array => .str "Array"
  | field f => .variant "Field" (.ofNat f)

def IndexRef.toDoc (r : IndexRef) : Doc :=
  .record [("index", r.index.toDoc), ("kind", r.kind.toDoc)]

def SourcePoint.toDoc : SourcePoint → Doc
  | call site index =>
    .variant "Call" (.record [("call_site", site.toDoc), ("index", index.toDoc)])
  | param m index => .variant "Param" (.record [("method", .ofNat m), ("index", index.toDoc)])
  | field load f => .variant "Field" (.record [("load", load.toDoc), ("field", .ofNat f)])

def SinkPoint.toDoc (s : SinkPoint) : Doc :=
  .record [("call_site", s.site.toDoc), ("index", s.index.toDoc)]

def TaintFlow.toDoc (f : TaintFlow) : Doc :=
  .record [("source", f.source.toDoc), ("sink", f.sink.toDoc)]

end PointsTo
