import PointsTo.Facts

/-!
Commands that handlers give the solver. A command names objects and pointers by what they are; the
solver interns them when it carries the command out.
-/
namespace PointsTo

/-- An object under a heap context. -/
inductive ObjRef
  | interned (id : CsObjId)
  | described (context : ContextId) (obj : Obj)

namespace ObjRef

def plain (obj : Obj) : ObjRef := described ContextTable.emptyId obj

end ObjRef

inductive PointerRef
  | interned (id : PointerId)
  | var (context : ContextId) (v : VarId)
  | field (base : ObjRef) (f : FieldId)
  | element (array : ObjRef)
  | static (f : FieldId)

/-- A method to start in the empty context, with the objects it starts with. -/
structure EntryPoint where
  method : MethodId
  thisObjs : List Obj := []
  /-- Objects of parameters, by position. -/
  params : List (Nat × Obj) := []
  /-- A base object, a field of it, and the object stored there. -/
  fields : List (Obj × FieldId × Obj) := []
  /-- An array and an element of it. -/
  elements : List (Obj × Obj) := []

inductive Command
  | addPointsTo (pointer : PointerRef) (objs : List ObjRef)
  | addEntryPoint (entry : EntryPoint)
  | addFilter (pointer : PointerRef) (keep : Obj → Bool)
  | addFlow (label : FlowLabel) (source target : PointerRef)
  | addCall (kind : CallKind) (context : ContextId) (site : StmtRef) (callee : MethodId)
      (receiver : Option ObjRef)
  /-- Sends the objects of a pointer over its edges once more. -/
  | propagate (pointer : PointerRef)

namespace Command

/-- Points a pointer to objects; no objects, no command. -/
def pointsTo (pointer : PointerRef) (objs : List ObjRef) : List Command :=
  if objs.isEmpty then [] else [addPointsTo pointer objs]

def varObj (context : ContextId) (v : VarId) (obj : Obj) : Command :=
  addPointsTo (.var context v) [.plain obj]

end Command

end PointsTo
