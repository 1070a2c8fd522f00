import PointsTo.Solver.State

/-!
How objects move: over an edge, into a points-to set past its filters, and on over the edges that
leave the pointer.
-/
namespace PointsTo.State

variable {σ : Type u}

/-- Sends objects through a transfer; what it makes is interned. -/
def transferAll (s : State σ) (t : Transfer) : List CsObjId → State σ × List CsObjId
  | [] => (s, [])
  | o :: rest =>
    match s.elements.obj? o, s.obj? o with
    | some (c, _), some obj =>
      match t c obj with
      | some (c, obj) =>
        let (s, id) := s.internDescribed c obj
        let (s, ids) := s.transferAll t rest
        (s, id :: ids)
      | none => s.transferAll t rest
    | _, _ => s.transferAll t rest

def flowOver (s : State σ) (p : Program) (id : EdgeId) (set : ObjSet) : State σ × ObjSet :=
  match (s.flow.edge? id).map FlowEdge.label with
  | some (.cast ty) => (s, set.filter (s.objSatisfies fun o => p.isSubtype o.ty ty))
  | some (.plain .thisPassing) => (s, set.filter (s.flow.admits id))
  | some (.other info) =>
    match info.transfer with
    | some t =>
      let (s, ids) := s.transferAll t set.toList
      (s, ObjSet.ofList ids)
    | none => (s, set)
  | some (.plain _) => (s, set)
  | none => (s, ObjSet.empty)

def send (s : State σ) (p : Program) (set : ObjSet) (id : EdgeId) : State σ :=
  let (s, flow) := s.flowOver p id set
  match s.flow.edge? id with
  | some e => s.pushPoints e.target flow
  | none => s

def sendAll (s : State σ) (p : Program) (pointer : PointerId) (set : ObjSet) : State σ :=
  (s.flow.outEdges pointer).foldl (fun s id => s.send p set id) s

def admitted (s : State σ) (pointer : PointerId) (set : ObjSet) : ObjSet :=
  match s.elements.filters pointer with
  | [] => set
  | filters => set.filter (s.objSatisfies fun o => filters.all fun keep => keep o)

/-- Puts objects into a points-to set and sends the new ones on; they are the answer. -/
def receive (s : State σ) (p : Program) (pointer : PointerId) (set : ObjSet) : State σ × ObjSet :=
  let kept := s.admitted pointer set
  let (pts, delta) := ((s.elements.pts? pointer).getD ObjSet.empty).union kept
  let s := { s with
    elements := s.elements.setPts pointer pts
    stats := { s.stats with filteredOut := s.stats.filteredOut + (set.size - kept.size) } }
  if delta.isEmpty then (s, delta) else (s.sendAll p pointer delta, delta)

/-- Adds an edge; what its source holds already flows over it. -/
def addFlow (s : State σ) (p : Program) (e : FlowEdge) : State σ :=
  let (flow, sent) := s.flow.add e
  let s := { s with flow }
  match sent with
  | none => s
  | some id =>
    match s.elements.pts? e.source with
    | some pts => if pts.isEmpty then s else s.send p pts id
    | none => s

/-- Adds an edge between two pointers given by what they are, the source interned first. -/
def link (s : State σ) (p : Program) (kind : FlowKind) (source target : Pointer) : State σ :=
  let (s, a) := s.internPointer source
  let (s, b) := s.internPointer target
  s.addFlow p (FlowEdge.plain kind a b)

end PointsTo.State
