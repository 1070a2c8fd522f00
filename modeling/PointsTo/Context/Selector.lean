import PointsTo.Context.Spec
import PointsTo.Context.Table
import PointsTo.Program.Hierarchy

/-!
Selectors decide in which context a method is analyzed and an object is allocated. They are the
only source of new contexts.
-/
namespace PointsTo

inductive Selector
  | limited (spec : ContextSpec)
  /-- A variant for some methods; the others run in the empty context. -/
  | selective (spec : ContextSpec) (methods : List MethodId)
  /-- A variant per method; later choices for a method hide earlier ones. -/
  | guided (choices : List (MethodId × ContextSpec)) (default : ContextSpec)

/-- What a selector knows of a receiver: its heap context and its object. -/
structure Receiver where
  context : ContextId
  obj : ObjId
  deriving DecidableEq

namespace Selector

def chosen (choices : List (MethodId × ContextSpec)) (default : ContextSpec) (m : MethodId) :
    ContextSpec :=
  match choices.reverse.find? fun c => c.1 == m with
  | some (_, spec) => spec
  | none => default

def specOf? : Selector → MethodId → Option ContextSpec
  | limited spec, _ => some spec
  | selective spec methods, m => if methods.contains m then some spec else none
  | guided choices default, m => some (chosen choices default m)

def name : Selector → String
  | limited spec => spec.name
  | selective spec methods =>
    "selective(" ++ spec.name ++ ", " ++ toString methods.eraseDups.length ++ " methods)"
  | guided choices default =>
    "guided(" ++ toString (choices.map (·.1)).eraseDups.length ++ " methods, default " ++
      default.name ++ ")"

def typeElem? (p : Program) (heap : Heap) (o : ObjId) : Option ContextElem :=
  match heap.get? o with
  | none => none
  | some obj =>
    match obj.container?.bind p.ownerOf? with
    | some c => some (.type c)
    | none => (p.dispatchClass? obj.ty).map .type

end Selector

namespace ContextSpec

def calleeContext (spec : ContextSpec) (p : Program) (heap : Heap) (t : ContextTable)
    (caller : ContextId) (site : StmtRef) (receiver : Option Receiver) : ContextTable × ContextId :=
  match spec, receiver with
  | insensitive, _ => (t, ContextTable.emptyId)
  | callSite k, _ => t.append caller (.callSite site) k
  | object k, none | type k, none => t.truncate caller k
  | object k, some r => t.append r.context (.object r.obj) k
  | type k, some r =>
    match Selector.typeElem? p heap r.obj with
    | some elem => t.append r.context elem k
    | none => t.truncate r.context k

def heapContext (spec : ContextSpec) (t : ContextTable) (c : ContextId) : ContextTable × ContextId :=
  t.truncate c (spec.limit - 1)

end ContextSpec

namespace Selector

def calleeContext (s : Selector) (p : Program) (heap : Heap) (t : ContextTable) (caller : ContextId)
    (site : StmtRef) (receiver : Option Receiver) (callee : MethodId) : ContextTable × ContextId :=
  match s.specOf? callee with
  | some spec => spec.calleeContext p heap t caller site receiver
  | none => (t, ContextTable.emptyId)

def heapContext (s : Selector) (t : ContextTable) (c : ContextId) (m : MethodId) :
    ContextTable × ContextId :=
  match s.specOf? m with
  | some spec => spec.heapContext t c
  | none => (t, ContextTable.emptyId)

end Selector

end PointsTo
