import PointsTo.Solver.Flow

/-!
The rules of the analysis: what statements, calls, reachable methods and commands add to a state.
-/
namespace PointsTo.State

variable {σ : Type u}

/-- A receiver reaches `this` of a method it was dispatched to, and no other object does. -/
def passReceiver (s : State σ) (base this : PointerId) (receiver : CsObjId) : State σ :=
  let (flow, made) := s.flow.add (FlowEdge.plain .thisPassing base this)
  match made.or (flow.find? .thisPassing base this) with
  | none => { s with flow }
  | some id =>
    let (flow, fresh) := flow.allow id receiver
    let s := { s with flow }
    if fresh then s.pushPoints this (ObjSet.singleton receiver) else s

/-- A call of a method at a site, in the context that the selector gives. -/
def callTo (s : State σ) (cx : Setup σ) (kind : CallKind) (context : ContextId) (site : StmtRef)
    (receiver : Option Receiver) (callee : MethodId) : State σ × ContextId :=
  let (s, c) := s.selectCallee cx context site receiver callee
  let (s, csSite) := s.internSite context site
  let (s, m) := s.internMethod c callee
  (s.pushCall ⟨kind, csSite, m⟩, c)

def callOn (s : State σ) (cx : Setup σ) (context : ContextId) (base : PointerId) (site : StmtRef)
    (call : Invoke) (receiver : CsObjId) : State σ :=
  match s.elements.obj? receiver, s.obj? receiver with
  | some (heapContext, id), some obj =>
    if obj.ty = .null then s
    else match cx.program.callee? call obj.ty with
      | none => s.notify cx (.unresolved (some receiver) context site)
      | some callee =>
        let (s, c) :=
          s.callTo cx (CallKind.ofInvoke call.kind) context site (some ⟨heapContext, id⟩) callee
        match cx.program.this? callee with
        | none => s
        | some this =>
          let (s, p) := s.internPointer (.var c this)
          s.passReceiver base p receiver
  | _, _ => s

/-- The call of new receivers at a site. The site is known from then on, whatever they resolve to. -/
def callOnAll (s : State σ) (cx : Setup σ) (context : ContextId) (base : PointerId) (site : StmtRef)
    (call : Invoke) (delta : ObjSet) : State σ :=
  let (s, _) := s.internSite context site
  delta.toList.foldl (fun s o => s.callOn cx context base site call o) s

def callStatic (s : State σ) (cx : Setup σ) (context : ContextId) (site : StmtRef) (call : Invoke) :
    State σ :=
  match cx.program.resolve? call.target with
  | none => s.notify cx (.unresolved none context site)
  | some callee => (s.callTo cx (CallKind.ofInvoke call.kind) context site none callee).1

/-- The registered statements that access a variable as base, by their kind. -/
def basedOn (s : State σ) (p : Program) (v : VarId) : List (StmtRef × Stmt) :=
  (s.seen.flatMap p.stmtRefs).filter fun (_, stmt) =>
    match stmt with
    | .loadField _ base _ | .storeField base _ _ | .loadArray _ base | .storeArray base _ => base == v
    | .invoke call => call.base == some v
    | _ => false

/-- The flow that an access asks for on one object of its base variable. -/
def accessFlow? (context : ContextId) (o : CsObjId) : Stmt → Option (FlowKind × Pointer × Pointer)
  | .loadField lhs _ f => some (.instanceLoad, .field o f, .var context lhs)
  | .storeField _ f rhs => some (.instanceStore, .var context rhs, .field o f)
  | .loadArray lhs _ => some (.arrayLoad, .element o, .var context lhs)
  | .storeArray _ rhs => some (.arrayStore, .var context rhs, .element o)
  | _ => none

def accessKind (s : State σ) (p : Program) (context : ContextId) (stmts : List (StmtRef × Stmt))
    (o : CsObjId) (kind : FlowKind) : State σ :=
  stmts.foldl (fun s (_, stmt) =>
    match accessFlow? context o stmt with
    | some (k, source, target) => if k = kind then s.link p k source target else s
    | none => s) s

/-- Field loads, field stores, array loads and array stores on one object of a base variable. -/
def accessAll (s : State σ) (p : Program) (context : ContextId) (stmts : List (StmtRef × Stmt))
    (o : CsObjId) : State σ :=
  [FlowKind.instanceLoad, .instanceStore, .arrayLoad, .arrayStore].foldl
    (fun s kind => s.accessKind p context stmts o kind) s

/-- What new objects of a variable make its statements do. -/
def useDelta (s : State σ) (cx : Setup σ) (context : ContextId) (v : VarId) (pointer : PointerId)
    (delta : ObjSet) : State σ :=
  let stmts := s.basedOn cx.program v
  let s := delta.toList.foldl (fun s o => s.accessAll cx.program context stmts o) s
  stmts.foldl (fun s (site, stmt) =>
    match stmt with
    | .invoke call => s.callOnAll cx context pointer site call delta
    | _ => s) s

def processPoints (s : State σ) (cx : Setup σ) (pointer : PointerId) (set : ObjSet) : State σ :=
  let (s, delta) := s.receive cx.program pointer set
  if delta.isEmpty then s
  else
    let s := match s.elements.pointer? pointer with
      | some (.var context v) => s.useDelta cx context v pointer delta
      | _ => s
    s.notify cx (.arrived pointer delta)

/-- The effect of a statement that depends on nothing but the context of its method. -/
def runStmt (s : State σ) (cx : Setup σ) (context : ContextId) (site : StmtRef) : Stmt → State σ
  | .new lhs ty =>
    let (s, o) := s.internObj (s.heap.rules.allocated site ty)
    let (s, h) := s.selectHeap cx context site.method
    let (s, co) := s.internCsObj h o
    let (s, p) := s.internPointer (.var context lhs)
    s.pushPoints p (ObjSet.singleton co)
  | .literal lhs value =>
    match value with
    | .str _ | .cls _ =>
      let (s, co) := s.internDescribed ContextTable.emptyId (s.heap.rules.constant value)
      let (s, p) := s.internPointer (.var context lhs)
      s.pushPoints p (ObjSet.singleton co)
    | .null | .int _ | .float _ => s
  | .copy lhs rhs => s.link cx.program .localAssign (.var context rhs) (.var context lhs)
  | .cast lhs rhs ty =>
    let (s, a) := s.internPointer (.var context rhs)
    let (s, b) := s.internPointer (.var context lhs)
    s.addFlow cx.program ⟨FlowLabel.cast ty, a, b⟩
  | .loadStatic lhs f => s.link cx.program .staticLoad (.static f) (.var context lhs)
  | .storeStatic f rhs => s.link cx.program .staticStore (.var context rhs) (.static f)
  | .invoke call => if call.isStatic then s.callStatic cx context site call else s
  | .loadField _ _ _ | .storeField _ _ _ | .loadArray _ _ | .storeArray _ _ | .ret _ | .throw _
  | .caught _ | .nop => s

/-- Registers the statements of a method that is new, and tells of them. -/
def registerMethod (s : State σ) (cx : Setup σ) (m : MethodId) : State σ :=
  if s.seen.contains m then s
  else
    let s := { s with seen := s.seen ++ [m] }
    let s := s.notify cx (.methodReached m)
    (cx.program.stmtRefs m).foldl (fun s (site, _) => s.notify cx (.stmtReached site)) s

def reach (s : State σ) (cx : Setup σ) (m : CsMethodId) : State σ :=
  let (calls, fresh) := s.calls.addReachable m
  let s := { s with calls }
  if fresh then
    match s.elements.method? m with
    | none => s
    | some (context, method) =>
      let s := s.registerMethod cx method
      let s := (cx.program.stmtRefs method).foldl
        (fun s (site, stmt) => s.runStmt cx context site stmt) s
      s.notify cx (.csMethodReached m)
  else s

/-- Arguments flow to parameters, returned variables to the result. -/
def passArguments (s : State σ) (p : Program) (caller : ContextId) (call : Invoke)
    (callee : ContextId) (body : Body) : State σ :=
  let s := (call.args.zip body.params).foldl
    (fun s (arg, param) => s.link p .parameterPassing (.var caller arg) (.var callee param)) s
  match call.result with
  | none => s
  | some result =>
    body.returns.foldl (fun s r => s.link p .ret (.var callee r) (.var caller result)) s

def processCall (s : State σ) (cx : Setup σ) (e : CallEdge) : State σ :=
  let (calls, fresh) := s.calls.addEdge e
  let s := { s with calls }
  if fresh then
    let s := s.reach cx e.callee
    let s := if e.kind = .other then s
      else match s.elements.site? e.site, s.elements.method? e.callee with
        | some (caller, site), some (callee, method) =>
          match cx.program.invoke? site, cx.program.body? method with
          | some call, some body => s.passArguments cx.program caller call callee body
          | _, _ => s
        | _, _ => s
    s.notify cx (.called e)
  else s

/-- Points a pointer to an object in the empty heap context. -/
def seed (s : State σ) (p : PointerId) (o : Obj) : State σ :=
  let (s, co) := s.internDescribed ContextTable.emptyId o
  s.pushPoints p (ObjSet.singleton co)

/-- The objects that an entry method starts with as `this`. -/
def seedThis (s : State σ) (body : Body) (objs : List Obj) : State σ :=
  match body.this with
  | none => s
  | some this =>
    let (s, p) := s.internPointer (.var ContextTable.emptyId this)
    let (s, ids) := s.resolveObjs (objs.map ObjRef.plain)
    s.pushPoints p (ObjSet.ofList ids)

def seedParam (s : State σ) (body : Body) (i : Nat) (o : Obj) : State σ :=
  match body.params[i]? with
  | none => s
  | some param =>
    let (s, p) := s.internPointer (.var ContextTable.emptyId param)
    s.seed p o

def seedField (s : State σ) (base : Obj) (f : FieldId) (o : Obj) : State σ :=
  let (s, b) := s.internDescribed ContextTable.emptyId base
  let (s, p) := s.internPointer (.field b f)
  s.seed p o

def seedElement (s : State σ) (array o : Obj) : State σ :=
  let (s, a) := s.internDescribed ContextTable.emptyId array
  let (s, p) := s.internPointer (.element a)
  s.seed p o

/-- Starts a method in the empty context with the objects of an entry point. -/
def enter (s : State σ) (cx : Setup σ) (entry : EntryPoint) : State σ :=
  let (s, m) := s.internMethod ContextTable.emptyId entry.method
  let s := { s with calls := s.calls.addEntry m }
  let s := s.reach cx m
  match cx.program.body? entry.method with
  | none => s
  | some body =>
    let s := s.seedThis body entry.thisObjs
    let s := entry.params.foldl (fun s (i, o) => s.seedParam body i o) s
    let s := entry.fields.foldl (fun s (base, f, o) => s.seedField base f o) s
    entry.elements.foldl (fun s (array, o) => s.seedElement array o) s

/-- A call that a handler asks for; its receiver, if it has one, is put into `this`. -/
def addCall (s : State σ) (cx : Setup σ) (kind : CallKind) (context : ContextId) (site : StmtRef)
    (callee : MethodId) (receiver : Option CsObjId) : State σ :=
  let known := (receiver.bind s.elements.obj?).map fun (h, o) => Receiver.mk h o
  let (s, c) := s.callTo cx kind context site known callee
  match receiver, cx.program.this? callee with
  | some o, some this =>
    let (s, p) := s.internPointer (.var c this)
    s.pushPoints p (ObjSet.singleton o)
  | _, _ => s

def apply (s : State σ) (cx : Setup σ) : Command → State σ
  | .addPointsTo pointer objs =>
    let (s, p) := s.resolvePointer pointer
    let (s, ids) := s.resolveObjs objs
    s.pushPoints p (ObjSet.ofList ids)
  | .addEntryPoint entry => s.enter cx entry
  | .addFilter pointer keep =>
    let (s, p) := s.resolvePointer pointer
    let s := { s with elements := s.elements.addFilter p keep }
    match s.elements.pts? p with
    | some pts => if pts.isEmpty then s else { s with refilter := s.refilter ++ [p] }
    | none => s
  | .addFlow label source target =>
    let (s, a) := s.resolvePointer source
    let (s, b) := s.resolvePointer target
    s.addFlow cx.program ⟨label, a, b⟩
  | .addCall kind context site callee none => s.addCall cx kind context site callee none
  | .addCall kind context site callee (some r) =>
    let (s, o) := s.resolveObj r
    s.addCall cx kind context site callee (some o)
  | .propagate pointer =>
    let (s, p) := s.resolvePointer pointer
    match s.elements.pts? p with
    | some pts => s.sendAll cx.program p pts
    | none => s

/-- The worklist has run empty: late filters take effect, then the handler has its say. -/
def endPhase (s : State σ) (cx : Setup σ) : State σ :=
  let pending := (s.refilter.eraseDups).mergeSort (· ≤ ·)
  let removals := pending.map fun p =>
    let filters := s.elements.filters p
    Removal.mk p fun o => !filters.all fun keep => keep o
  let (facts, refused) := s.toFacts.removeAll removals
  let r := cx.handlers.phaseEnd facts refused s.handler
  let (facts, removed) := facts.removeAll r.removals
  { s with
    toFacts := { facts with heap := facts.heap.internAll r.created }
    queue := s.queue ++ r.commands
    refilter := []
    stats := { s.stats with
      phases := s.stats.phases + 1
      filteredOut := s.stats.filteredOut + refused + removed }
    handler := r.state }

end PointsTo.State
