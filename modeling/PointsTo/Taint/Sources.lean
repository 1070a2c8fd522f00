import PointsTo.Handler
import PointsTo.Taint.Config
import PointsTo.Taint.Marks

/-!
Taint entering a program: at calls and at the entry of methods named as sources, and where source
fields are loaded. Taint inside arrays and fields is added for every object that the variable holds
now or later.
-/
namespace PointsTo

/-- Taint that goes into every object of a variable. -/
structure PendingMark where
  context : ContextId
  var : VarId
  kind : IndexKind
  mark : Obj
  deriving DecidableEq

structure TaintSources where
  sources : List Source
  /-- The loads of source fields seen so far. -/
  loads : List (StmtRef × VarId × FieldId) := []
  pending : List PendingMark := []

namespace TaintSources

def callSources (s : TaintSources) (m : MethodId) : List (IndexRef × Ty) :=
  s.sources.filterMap fun
    | .call n index ty => if n = m then some (index, ty) else none
    | _ => none

def paramSources (s : TaintSources) (m : MethodId) : List (IndexRef × Ty) :=
  s.sources.filterMap fun
    | .param n index ty => if n = m then some (index, ty) else none
    | _ => none

/-- The type of taint from a field; of several entries the last counts. -/
def fieldTy? (s : TaintSources) (f : FieldId) : Option Ty :=
  s.sources.reverse.findSome? fun
    | .field g ty => if g = f then some ty else none
    | _ => none

def recordLoad (p : Program) (s : TaintSources) (site : StmtRef) : TaintSources :=
  match p.stmt? site with
  | some (.loadField v _ f) | some (.loadStatic v f) =>
    if (s.fieldTy? f).isSome then { s with loads := s.loads ++ [(site, v, f)] } else s
  | _ => s

/-- The pointer inside an object that a kind of index refers to. -/
def inside? (kind : IndexKind) (o : CsObjId) : Option PointerRef :=
  match kind with
  | .var => none
  | .array => some (.element (.interned o))
  | .field f => some (.field (.interned o) f)

def markInside (objs : ObjSet) (kind : IndexKind) (mark : Obj) : List Command :=
  (objs.toList.filterMap (inside? kind)).map fun p => .addPointsTo p [.plain mark]

def enter (facts : Facts) (s : TaintSources) (m : PendingMark) : TaintSources × List Command :=
  match m.kind with
  | .var => (s, [Command.varObj m.context m.var m.mark])
  | _ =>
    if s.pending.contains m then (s, [])
    else ({ s with pending := s.pending ++ [m] },
      match facts.varPts? m.context m.var with
      | some objs => markInside objs m.kind m.mark
      | none => [])

def enterAll (facts : Facts) (context : ContextId) :
    TaintSources × Marks → List (SourcePoint × VarId × IndexKind × Ty) →
      Reaction (TaintSources × Marks)
  | state, [] => { state }
  | (s, marks), (point, v, kind, ty) :: rest =>
    let (marks, mark) := marks.mark point ty
    let (s, commands) := s.enter facts ⟨context, v, kind, mark⟩
    let later := enterAll facts context (s, marks) rest
    { state := later.state
      created := mark :: later.created
      commands := commands ++ later.commands }

def callPoints (s : TaintSources) (site : StmtRef) (call : Invoke) (callee : MethodId) :
    List (SourcePoint × VarId × IndexKind × Ty) :=
  (s.callSources callee).filterMap fun (index, ty) =>
    (index.index.callVar? call).map fun v => (.call site index, v, index.kind, ty)

/-- The points that a method's entry and loads bring in. -/
def methodPoints (p : Program) (s : TaintSources) (m : MethodId) :
    List (SourcePoint × VarId × IndexKind × Ty) :=
  let params := match p.body? m with
    | none => []
    | some body => (s.paramSources m).filterMap fun (index, ty) =>
      (index.index.paramVar? body).map fun v => (SourcePoint.param m index, v, index.kind, ty)
  let loads := (s.loads.filter fun (site, _, _) => site.method == m).filterMap fun (site, v, f) =>
    (s.fieldTy? f).map fun ty => (SourcePoint.field site f, v, IndexKind.var, ty)
  params ++ loads

/-- New objects of a variable get the taint that is pending for it. -/
def update (s : TaintSources) (context : ContextId) (v : VarId) (delta : ObjSet) : List Command :=
  (s.pending.filter fun m => m.context == context && m.var == v).flatMap fun m =>
    markInside delta m.kind m.mark

end TaintSources

end PointsTo
