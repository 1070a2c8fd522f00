import PointsTo.Command
import PointsTo.Text.Quoted

/-!
Descriptions of commands, with objects by their handles.
-/
namespace PointsTo

def dumpList (items : List String) : String := "[" ++ Text.join ", " items ++ "]"

def dumpTuple (items : List String) : String := "(" ++ Text.join ", " items ++ ")"

def dumpObj (h : Heap) (o : Obj) : String :=
  dumpHandle "ObjId" ((h.objects.find? o).getD 0)

def ObjRef.dump (h : Heap) : ObjRef → String
  | interned id => dumpApp "Cs" [dumpHandle "CsObjId" id]
  | described c o => dumpRecord "Obj" [("context", dumpHandle "ContextId" c), ("obj", dumpObj h o)]

def PointerRef.dump (h : Heap) : PointerRef → String
  | interned id => dumpApp "Pointer" [dumpHandle "PointerId" id]
  | var c v => dumpRecord "Var" [("context", dumpHandle "ContextId" c), ("var", dumpHandle "VarId" v)]
  | field base f =>
    dumpRecord "InstanceField" [("base", base.dump h), ("field", dumpHandle "FieldId" f)]
  | element array => dumpRecord "ArrayIndex" [("array", array.dump h)]
  | static f => dumpRecord "StaticField" [("field", dumpHandle "FieldId" f)]

def CallKind.title : CallKind → String
  | virtual => "Virtual"
  | interface => "Interface"
  | special => "Special"
  | static => "Static"
  | dynamic => "Dynamic"
  | other => "Other"

def EdgeInfo.dump (i : EdgeInfo) : String :=
  dumpRecord "EdgeInfo" [("origin", Text.quote i.origin), ("key", toString i.key),
    ("transfer", dumpBool i.transfer.isSome)]

def EntryPoint.dump (h : Heap) (e : EntryPoint) : String :=
  let params := dumpRecord "ParamProvider" [
    ("this_objs", dumpList (e.thisObjs.map (dumpObj h))),
    ("param_objs", dumpList (e.params.map fun (i, o) => dumpTuple [toString i, dumpObj h o])),
    ("field_objs", dumpList (e.fields.map fun (base, f, o) =>
      dumpTuple [dumpObj h base, dumpHandle "FieldId" f, dumpObj h o])),
    ("array_objs", dumpList (e.elements.map fun (array, o) =>
      dumpTuple [dumpObj h array, dumpObj h o]))]
  dumpRecord "EntryPoint" [("method", dumpHandle "MethodId" e.method), ("params", params)]

def Command.dump (h : Heap) : Command → String
  | addPointsTo pointer objs =>
    dumpRecord "AddPointsTo" [("pointer", pointer.dump h), ("objs", dumpList (objs.map (·.dump h)))]
  | addEntryPoint e => dumpApp "AddEntryPoint" [e.dump h]
  | addFilter pointer _ => "AddPointerFilter \x7b pointer: " ++ pointer.dump h ++ ", .. \x7d"
  | addFlow label a b =>
    dumpRecord "AddFlowEdge" [("kind", label.data.kind.name), ("source", a.dump h),
      ("target", b.dump h), ("info", dumpOption (label.data.info.map EdgeInfo.dump))]
  | addCall kind context site callee receiver =>
    dumpRecord "AddCallEdge" [("kind", kind.title),
      ("call_site", dumpTuple [dumpHandle "ContextId" context, site.dump]),
      ("callee", dumpHandle "MethodId" callee),
      ("receiver", dumpOption (receiver.map (·.dump h)))]
  | propagate pointer => dumpApp "Propagate" [pointer.dump h]

def FlowEdge.dump (e : FlowEdge) : String :=
  dumpRecord "PointerFlowEdge" [("kind", e.kind.name), ("source", dumpHandle "PointerId" e.source),
    ("target", dumpHandle "PointerId" e.target),
    ("cast_type", dumpOption (e.data.castTy.map Ty.dump)),
    ("info", dumpOption (e.data.info.map EdgeInfo.dump))]

end PointsTo
