import PointsTo.Dump
import PointsTo.Taint.Index

/-!
Where taint comes from, where it must not arrive, and flows from one to the other.
-/
namespace PointsTo

inductive SourcePoint
  | call (site : StmtRef) (index : IndexRef)
  | param (method : MethodId) (index : IndexRef)
  | field (load : StmtRef) (f : FieldId)
  deriving DecidableEq

structure SinkPoint where
  site : StmtRef
  index : IndexRef
  deriving DecidableEq

structure TaintFlow where
  source : SourcePoint
  sink : SinkPoint
  deriving DecidableEq

namespace SourcePoint

/-- Calls before parameters before fields, each by place and then by index or field. -/
def key : SourcePoint → List Nat
  | call site index => [0, site.method, site.index] ++ index.key
  | param m index => [1, m] ++ index.key
  | field load f => [2, load.method, load.index, f]

end SourcePoint

namespace SinkPoint

def key (s : SinkPoint) : List Nat := [s.site.method, s.site.index] ++ s.index.key

def text (s : SinkPoint) : String := s.site.dump ++ "/" ++ s.index.text

end SinkPoint

namespace TaintFlow

def key (f : TaintFlow) : List Nat := f.source.key ++ f.sink.key

def place (p : Program) (site : StmtRef) : String :=
  p.methodSignature site.method ++ "[" ++ toString site.index ++ "]"

def describe (p : Program) (f : TaintFlow) : String :=
  let source := match f.source with
    | .call site index => place p site ++ "/" ++ index.text
    | .param m index => p.methodSignature m ++ "/" ++ index.text
    | .field load field => place p load ++ "/" ++ p.fieldSignature field
  source ++ " -> " ++ place p f.sink.site ++ "/" ++ f.sink.index.text

end TaintFlow

end PointsTo
