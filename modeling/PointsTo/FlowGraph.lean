import PointsTo.Elements

/-!
The pointer flow graph. An edge says that objects flow from one pointer to another; its label may
let only some of them through, or turn them into others. Edges are only ever added, and no two
edges have the same identity. An edge is found by its identity and by either end.
-/
namespace PointsTo

abbrev EdgeId := Nat

inductive FlowKind
  | localAssign | cast | instanceLoad | instanceStore | arrayLoad | arrayStore | staticLoad
  | staticStore | parameterPassing | ret | thisPassing | other
  deriving DecidableEq

namespace FlowKind

def all : List FlowKind :=
  [localAssign, cast, instanceLoad, instanceStore, arrayLoad, arrayStore, staticLoad, staticStore,
    parameterPassing, ret, thisPassing, other]

def name : FlowKind → String
  | localAssign => "LocalAssign"
  | cast => "Cast"
  | instanceLoad => "InstanceLoad"
  | instanceStore => "InstanceStore"
  | arrayLoad => "ArrayLoad"
  | arrayStore => "ArrayStore"
  | staticLoad => "StaticLoad"
  | staticStore => "StaticStore"
  | parameterPassing => "ParameterPassing"
  | ret => "Return"
  | thisPassing => "ThisPassing"
  | other => "Other"

def ofName? (name : String) : Option FlowKind := all.find? fun k => k.name == name

end FlowKind

/-- Maps an object under its heap context to what arrives at the other end; none does not flow. -/
abbrev Transfer := ContextId → Obj → Option (ContextId × Obj)

/-- What a handler attaches to an edge of its own; origin and key identify it. -/
structure EdgeInfo where
  origin : String
  key : Nat
  transfer : Option Transfer := none

/-- What an edge carries beside its ends. -/
structure EdgeData where
  kind : FlowKind
  /-- What a cast lets through. -/
  castTy : Option Ty := none
  /-- What came with an edge of kind other. -/
  info : Option EdgeInfo := none

/-- What an edge does with objects. -/
inductive FlowLabel
  /-- An edge of a kind with nothing attached. -/
  | plain (kind : FlowKind)
  /-- Lets subtypes of a type through. -/
  | cast (ty : Ty)
  | other (info : EdgeInfo)

/-- The part of a label that tells edges between the same pointers apart. -/
inductive LabelIdentity
  | plain (kind : FlowKind)
  | cast (ty : Ty)
  | other (origin : String) (key : Nat)
  deriving DecidableEq

namespace FlowLabel

def data : FlowLabel → EdgeData
  | plain kind => { kind }
  | cast ty => { kind := .cast, castTy := some ty }
  | other info => { kind := .other, info := some info }

instance : Coe FlowLabel EdgeData := ⟨data⟩

def identity : FlowLabel → LabelIdentity
  | plain kind => .plain kind
  | cast ty => .cast ty
  | other info => .other info.origin info.key

end FlowLabel

/-- A type counts on a cast alone, and what a handler attached on an edge of kind other alone. -/
def EdgeData.label (d : EdgeData) : FlowLabel :=
  match d.castTy, d.info, d.kind with
  | some ty, _, .cast => .cast ty
  | _, some info, .other => .other info
  | _, _, kind => .plain kind

structure FlowEdge where
  data : EdgeData
  source : PointerId
  target : PointerId

structure EdgeIdentity where
  label : LabelIdentity
  source : PointerId
  target : PointerId
  deriving DecidableEq

namespace FlowEdge

def plain (kind : FlowKind) (source target : PointerId) : FlowEdge := ⟨FlowLabel.plain kind, source, target⟩

def label (e : FlowEdge) : FlowLabel := e.data.label

def identity (e : FlowEdge) : EdgeIdentity := ⟨e.label.identity, e.source, e.target⟩

def kind (e : FlowEdge) : FlowKind := e.data.kind

end FlowEdge

/-- Edges by position, by identity and by either end. -/
structure EdgeStore where
  edges : Array FlowEdge := #[]
  keys : Dict EdgeIdentity EdgeId := {}
  /-- The edges that leave a pointer. -/
  out : Dict PointerId (List EdgeId) := {}
  /-- The edges that lead to a pointer. -/
  into : Dict PointerId (List EdgeId) := {}
  /-- The receivers that may pass over an edge to `this`. -/
  receivers : List (EdgeId × CsObjId) := []

namespace EdgeStore

def size (g : EdgeStore) : Nat := g.edges.size

def edge? (g : EdgeStore) (e : EdgeId) : Option FlowEdge := g.edges[e]?

/-- Adds an edge. The answer is the edge to send objects over: the new edge, or a repeated edge of
kind other; none for any other repetition. -/
def add (g : EdgeStore) (e : FlowEdge) : EdgeStore × Option EdgeId :=
  match g.keys.get? e.identity with
  | some i => (g, if e.kind = .other then some i else none)
  | none =>
    ({ g with
        edges := g.edges.push e
        keys := g.keys.insert e.identity g.size
        out := g.out.append e.source g.size
        into := g.into.append e.target g.size },
      some g.size)

def find? (g : EdgeStore) (kind : FlowKind) (source target : PointerId) : Option EdgeId :=
  g.keys.get? ⟨.plain kind, source, target⟩

def outEdges (g : EdgeStore) (p : PointerId) : List EdgeId := g.out.list p

def inEdges (g : EdgeStore) (p : PointerId) : List EdgeId := g.into.list p

def admits (g : EdgeStore) (e : EdgeId) (o : CsObjId) : Bool := g.receivers.contains (e, o)

def allow (g : EdgeStore) (e : EdgeId) (o : CsObjId) : EdgeStore × Bool :=
  if g.admits e o then (g, false) else ({ g with receivers := (e, o) :: g.receivers }, true)

/-- All indexes tell of the same edges. -/
def Agrees (g : EdgeStore) : Prop :=
  g.keys.Indexes g.edges FlowEdge.identity ∧ g.out.Lists g.edges (some ·.source) ∧
    g.into.Lists g.edges (some ·.target)

theorem agrees_empty : Agrees {} := ⟨Dict.Indexes.empty, Dict.Lists.empty, Dict.Lists.empty⟩

variable {g : EdgeStore} (agrees : g.Agrees)

include agrees

theorem Agrees.add (e : FlowEdge) : (g.add e).1.Agrees := by
  unfold EdgeStore.add
  split
  · exact agrees
  · next fresh => exact ⟨agrees.1.push fresh, agrees.2.1.push, agrees.2.2.push⟩

theorem Agrees.allow (e : EdgeId) (o : CsObjId) : (g.allow e o).1.Agrees := by
  unfold EdgeStore.allow
  split <;> exact agrees

end EdgeStore

structure FlowGraph extends EdgeStore where
  agrees : toEdgeStore.Agrees := by exact EdgeStore.agrees_empty

namespace FlowGraph

def add (g : FlowGraph) (e : FlowEdge) : FlowGraph × Option EdgeId :=
  let added := g.toEdgeStore.add e
  (⟨added.1, g.agrees.add e⟩, added.2)

def allow (g : FlowGraph) (e : EdgeId) (o : CsObjId) : FlowGraph × Bool :=
  let allowed := g.toEdgeStore.allow e o
  (⟨allowed.1, g.agrees.allow e o⟩, allowed.2)

end FlowGraph

end PointsTo
