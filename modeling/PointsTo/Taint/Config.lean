import PointsTo.Distinct
import PointsTo.Taint.Index

/-!
What a taint analysis is told: the sources of taint, the sinks it must not reach, the calls that
pass it on, and the parameters that are clean.
-/
namespace PointsTo

inductive Source
  | call (method : MethodId) (index : IndexRef) (ty : Ty)
  | param (method : MethodId) (index : IndexRef) (ty : Ty)
  | field (f : FieldId) (ty : Ty)
  deriving DecidableEq

structure Sink where
  method : MethodId
  index : IndexRef
  deriving DecidableEq

structure TaintTransfer where
  method : MethodId
  source : IndexRef
  target : IndexRef
  ty : Ty
  deriving DecidableEq

structure Sanitizer where
  method : MethodId
  index : Index
  deriving DecidableEq

structure TaintConfig where
  sources : List Source := []
  sinks : List Sink := []
  transfers : List TaintTransfer := []
  sanitizers : List Sanitizer := []
  callSiteMode : Bool := false
  deriving DecidableEq

namespace TaintConfig

/-- Both configurations in one, repeated entries once. -/
def merge (a b : TaintConfig) : TaintConfig :=
  { sources := appendNew a.sources b.sources
    sinks := appendNew a.sinks b.sinks
    transfers := appendNew a.transfers b.transfers
    sanitizers := appendNew a.sanitizers b.sanitizers
    callSiteMode := a.callSiteMode || b.callSiteMode }

def isEmpty (c : TaintConfig) : Bool :=
  c.sources.isEmpty && c.sinks.isEmpty && c.transfers.isEmpty && c.sanitizers.isEmpty

def isSanitized (c : TaintConfig) (m : MethodId) (index : Index) : Bool :=
  c.sanitizers.contains ⟨m, index⟩

def activeSinks (c : TaintConfig) : List Sink :=
  c.sinks.filter fun s => !(s.index.kind == .var && c.isSanitized s.method s.index.index)

end TaintConfig

end PointsTo
