import PointsTo.Handler
import PointsTo.Options

/-!
Where a run starts. Entry methods are given parameters that stand for whatever a caller may pass;
methods that a virtual machine calls on its own start without.
-/
namespace PointsTo

def implicitEntries : List String :=
  ["<java.lang.System: void initializeSystemClass()>",
    "<java.lang.Thread: void exit()>",
    "<java.lang.ThreadGroup: void uncaughtException(java.lang.Thread,java.lang.Throwable)>",
    "<java.lang.ClassLoader: void <init>()>",
    "<java.lang.ClassLoader: java.lang.Class loadClassInternal(java.lang.String)>",
    "<java.lang.ClassLoader: void checkPackageAccess(java.lang.Class,java.security.ProtectionDomain)>",
    "<java.lang.ClassLoader: void addClass(java.lang.Class)>",
    "<java.lang.ClassLoader: long findNative(java.lang.ClassLoader,java.lang.String)>",
    "<java.security.PrivilegedActionException: void <init>(java.lang.Exception)>"]

/-- What an unknown caller passes for one parameter: an object, and for an array of references an
element. -/
structure MockParam where
  index : Nat
  obj : Obj
  elem : Option Obj

namespace MockParam

def ofTy? (m : MethodId) (index : Nat) (ty : Ty) : Option MockParam :=
  if ty.isReference then
    some {
      index
      obj := Obj.mockIn .entryPoint (.param m index) ty m
      elem := (ty.elem?.filter Ty.isReference).map fun elem =>
        Obj.mockIn .entryPoint (.index index) elem m }
  else none

def ofMethod (p : Program) (m : MethodId) : List MockParam :=
  match p.methods[m]? with
  | some decl => decl.params.zipIdx.filterMap fun (ty, i) => ofTy? m i ty
  | none => []

end MockParam

/-- The receiver that an unknown caller passes; static methods have none. -/
def mockThis (p : Program) (m : MethodId) : List Obj :=
  match p.methods[m]? with
  | some decl =>
    if decl.flags.isStatic then [] else [Obj.mockIn .entryPoint (.name "this") (.cls decl.owner) m]
  | none => []

namespace EntryPoint

def mocked (p : Program) (m : MethodId) : EntryPoint :=
  { method := m
    thisObjs := mockThis p m
    params := (MockParam.ofMethod p m).map fun q => (q.index, q.obj)
    elements := (MockParam.ofMethod p m).filterMap fun q => q.elem.map fun e => (q.obj, e) }

/-- The objects of an unknown caller, in the order in which they are made. -/
def mockedObjs (p : Program) (m : MethodId) : List Obj :=
  mockThis p m ++ (MockParam.ofMethod p m).flatMap fun q => q.obj :: q.elem.toList

end EntryPoint

structure Entries where
  entries : List MethodId
  implicit : List MethodId

namespace Entries

/-- Entry methods of the options that the program has, or its main method if none are given. -/
def ofOptions (p : Program) (o : Options) : Entries :=
  { entries := if o.entryMethods.isEmpty then p.main.toList
      else o.entryMethods.filterMap p.methodBySignature?
    implicit := if o.implicitEntries then implicitEntries.filterMap p.methodBySignature? else [] }

def react (p : Program) (s : Entries) : Event → Reaction Entries
  | .started =>
    { state := s
      created := s.entries.flatMap (EntryPoint.mockedObjs p)
      commands := s.entries.map (fun m => .addEntryPoint (EntryPoint.mocked p m))
        ++ s.implicit.map fun m => .addEntryPoint { method := m } }
  | _ => { state := s }

end Entries

end PointsTo
