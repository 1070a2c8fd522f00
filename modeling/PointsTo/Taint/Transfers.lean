import PointsTo.Taint.Sources

/-!
Taint passed on by calls. A transfer between two variables is an edge; one that ends or begins
inside objects is an edge for every object that the variable holds now or later.
-/
namespace PointsTo

structure TransferSite where
  id : Nat
  ty : Ty
  context : ContextId
  source : VarId × IndexKind
  target : VarId × IndexKind

namespace TransferSite

def edge (t : TransferSite) (source target : PointerRef) : Command :=
  .addFlow (.other {
    origin := "taint-transfer", key := t.id, transfer := some (taintTransfer t.ty) }) source target

/-- All pointers that one end of the transfer stands for. -/
def ends (facts : Facts) (t : TransferSite) (e : VarId × IndexKind) : List PointerRef :=
  match e.2 with
  | .var => [.var t.context e.1]
  | kind => match facts.varPts? t.context e.1 with
    | some objs => objs.toList.filterMap (TaintSources.inside? kind)
    | none => []

/-- The edges that objects of a variable add, at the source end and at the target end. -/
def expand (facts : Facts) (t : TransferSite) (v : VarId) (objs : ObjSet) : List Command :=
  let inside (e : VarId × IndexKind) : List PointerRef :=
    if e.1 = v then objs.toList.filterMap (TaintSources.inside? e.2) else []
  ((inside t.source).flatMap fun a => (t.ends facts t.target).map fun b => t.edge a b)
    ++ (inside t.target).flatMap fun b => (t.ends facts t.source).map fun a => t.edge a b

end TransferSite

structure TaintTransfers where
  transfers : List TaintTransfer
  /-- Transfers that wait for the objects of a variable. -/
  pending : List (VarId × TransferSite) := []

namespace TaintTransfers

def sitesAt (s : TaintTransfers) (context : ContextId) (call : Invoke) (callee : MethodId) :
    List TransferSite :=
  s.transfers.zipIdx.filterMap fun (t, id) =>
    if t.method = callee then
      match t.source.index.callVar? call, t.target.index.callVar? call with
      | some a, some b => some ⟨id, t.ty, context, (a, t.source.kind), (b, t.target.kind)⟩
      | _, _ => none
    else none

/-- The ends of a transfer that lie inside objects. -/
def waitsFor (t : TransferSite) : List VarId :=
  [t.source, t.target].filterMap fun (v, kind) => if kind = .var then none else some v

def start (facts : Facts) (s : TaintTransfers) (t : TransferSite) : TaintTransfers × List Command :=
  match waitsFor t with
  | [] => (s, [t.edge (.var t.context t.source.1) (.var t.context t.target.1)])
  | waiting =>
    ({ s with pending := s.pending ++ waiting.map fun v => (v, t) },
      waiting.flatMap fun v => match facts.varPts? t.context v with
        | some objs => t.expand facts v objs
        | none => [])

def startAll (facts : Facts) (s : TaintTransfers) : List TransferSite → TaintTransfers × List Command
  | [] => (s, [])
  | t :: rest =>
    let (s, commands) := s.start facts t
    let (s, later) := s.startAll facts rest
    (s, commands ++ later)

/-- New objects of a variable extend the transfers that wait for them. -/
def update (facts : Facts) (s : TaintTransfers) (context : ContextId) (v : VarId) (delta : ObjSet) :
    List Command :=
  (s.pending.filter fun (w, t) => w == v && t.context == context).flatMap fun (_, t) =>
    t.expand facts v delta

end TaintTransfers

end PointsTo
