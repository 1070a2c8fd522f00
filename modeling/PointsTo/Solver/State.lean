import PointsTo.Context.Selector
import PointsTo.Handler
import PointsTo.Worklist

/-!
The state of a run: the facts found so far, the work ahead, the commands not yet carried out, and
the state of the handler.
-/
namespace PointsTo

/-- What stays fixed during a run. -/
structure Setup (σ : Type u) where
  program : Program
  selector : Selector
  handlers : Handlers σ

structure Stats where
  /-- Work items taken. -/
  iterations : Nat := 0
  /-- Times the worklist ran empty. -/
  phases : Nat := 0
  commands : Nat := 0
  /-- Objects refused or removed by filters, and removed by handlers. -/
  filteredOut : Nat := 0

structure State (σ : Type u) extends Facts where
  worklist : Worklist := {}
  queue : List Command := []
  /-- The methods whose statements are registered, in order of discovery. -/
  seen : List MethodId := []
  /-- Pointers that got a filter while they held objects. -/
  refilter : List PointerId := []
  stats : Stats := {}
  handler : σ

namespace State

variable {σ : Type u}

def internObj (s : State σ) (o : Obj) : State σ × ObjId :=
  ({ s with heap := (s.heap.intern o).1 }, (s.heap.intern o).2)

def internCsObj (s : State σ) (c : ContextId) (o : ObjId) : State σ × CsObjId :=
  ({ s with elements := (s.elements.internObj c o).1 }, (s.elements.internObj c o).2)

def internSite (s : State σ) (c : ContextId) (site : StmtRef) : State σ × CsSiteId :=
  ({ s with elements := (s.elements.internSite c site).1 }, (s.elements.internSite c site).2)

def internMethod (s : State σ) (c : ContextId) (m : MethodId) : State σ × CsMethodId :=
  ({ s with elements := (s.elements.internMethod c m).1 }, (s.elements.internMethod c m).2)

def internPointer (s : State σ) (p : Pointer) : State σ × PointerId :=
  ({ s with elements := (s.elements.internPointer p).1 }, (s.elements.internPointer p).2)

/-- Interns an object and then the object under a heap context. -/
def internDescribed (s : State σ) (c : ContextId) (o : Obj) : State σ × CsObjId :=
  let (s, id) := s.internObj o
  s.internCsObj c id

def resolveObj (s : State σ) : ObjRef → State σ × CsObjId
  | .interned id => (s, id)
  | .described c o => s.internDescribed c o

def resolveObjs (s : State σ) : List ObjRef → State σ × List CsObjId
  | [] => (s, [])
  | r :: rest =>
    let (s, id) := s.resolveObj r
    let (s, ids) := s.resolveObjs rest
    (s, id :: ids)

def resolvePointer (s : State σ) : PointerRef → State σ × PointerId
  | .interned id => (s, id)
  | .var c v => s.internPointer (.var c v)
  | .field base f =>
    let (s, o) := s.resolveObj base
    s.internPointer (.field o f)
  | .element array =>
    let (s, o) := s.resolveObj array
    s.internPointer (.element o)
  | .static f => s.internPointer (.static f)

def pushPoints (s : State σ) (p : PointerId) (set : ObjSet) : State σ :=
  { s with worklist := s.worklist.pushPoints p set }

def pushCall (s : State σ) (e : CallEdge) : State σ := { s with worklist := s.worklist.pushCall e }

def selectCallee (s : State σ) (cx : Setup σ) (caller : ContextId) (site : StmtRef)
    (receiver : Option Receiver) (callee : MethodId) : State σ × ContextId :=
  let (contexts, c) :=
    cx.selector.calleeContext cx.program s.heap s.contexts caller site receiver callee
  ({ s with contexts }, c)

/-- The heap context of an object that a method allocates. -/
def selectHeap (s : State σ) (cx : Setup σ) (c : ContextId) (m : MethodId) : State σ × ContextId :=
  let (contexts, h) := cx.selector.heapContext s.contexts c m
  ({ s with contexts }, h)

/-- Tells the handler of an event; its objects are interned at once, its commands wait. -/
def notify (s : State σ) (cx : Setup σ) (e : Event) : State σ :=
  let r := cx.handlers.react e s.toFacts s.handler
  { s with
    heap := s.heap.internAll r.created
    queue := s.queue ++ r.commands
    handler := r.state }

end State

end PointsTo
