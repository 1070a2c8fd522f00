import PointsTo.Handlers.Initializers
import PointsTo.Handlers.Models

/-!
Reflection. Class objects are known by name or from a receiver, and make instances; whatever cannot
be known is an object of its own for each call.
-/
namespace PointsTo

inductive ReflectionModel
  | forName | newInstance | getClass | methodInvoke | constructorNewInstance
  deriving DecidableEq

namespace ReflectionModel

def dump : ReflectionModel → String
  | forName => "ForName"
  | newInstance => "ClassNewInstance"
  | getClass => "GetClass"
  | methodInvoke => "MethodInvoke"
  | constructorNewInstance => "ConstructorNewInstance"

def table : List (String × ReflectionModel) :=
  [("<java.lang.Class: java.lang.Class forName(java.lang.String)>", forName),
    ("<java.lang.Class: java.lang.Object newInstance()>", newInstance),
    ("<java.lang.Object: java.lang.Class getClass()>", getClass),
    ("<java.lang.reflect.Method: java.lang.Object invoke(java.lang.Object,java.lang.Object[])>",
      methodInvoke),
    ("<java.lang.reflect.Constructor: java.lang.Object newInstance(java.lang.Object[])>",
      constructorNewInstance)]

/-- Whether the result of the call cannot be known. -/
def isUnknown : ReflectionModel → Bool
  | methodInvoke | constructorNewInstance => true
  | forName | newInstance | getClass => false

end ReflectionModel

structure Reflection where
  models : CallModels ReflectionModel
  initialized : Initialized := {}
  classTy : Ty
  objectTy : Ty

namespace Reflection

def ofProgram (p : Program) : Reflection :=
  { models := CallModels.ofProgram p ReflectionModel.table
    classTy := Ty.ofClass? (p.classByName? "java.lang.Class")
    objectTy := Ty.ofClass? p.objectClass? }

def unknownObj (site : StmtRef) (ty : Ty) : Obj := Obj.mock .unknownReflective (.stmt site) ty

/-- The class that an object names, if it is a string constant. -/
def namedClass? (p : Program) (o : Obj) : Option ClassId :=
  match o.constant? with
  | some (.str name) => p.classByName? name
  | _ => none

def lookUp (p : Program) (facts : Facts) (s : Reflection) (context : ContextId)
    (c : ModeledCall ReflectionModel) (result : VarId) (names : List Obj) : Reaction Reflection :=
  let classes := names.map (namedClass? p)
  let objs := classes.map fun
    | some cls => facts.heap.rules.constant (.cls (.cls cls))
    | none => unknownObj c.site s.classTy
  let (initialized, ms) := s.initialized.initializeAll p (classes.filterMap id)
  { state := { s with initialized }
    created := objs
    commands := ms.map (fun m => .addEntryPoint { method := m })
      ++ Command.pointsTo (.var context result) (objs.map ObjRef.plain) }

def instantiable? (p : Program) (o : Obj) : Option ClassId :=
  match o.constant? with
  | some (.cls (.cls c)) =>
    match p.classes[c]? with
    | some decl => if decl.isInterface || decl.isAbstract then none else some c
    | none => none
  | _ => none

/-- An instance made by a class object, and the call of its constructor. -/
def instantiate (p : Program) (context : ContextId) (c : ModeledCall ReflectionModel)
    (result : VarId) (cls : ClassId) : Obj × List Command :=
  let made := Obj.mockIn .reflective (.stmt c.site) (.cls cls) c.site.method
  (made, Command.varObj context result made ::
    (p.declared? cls "void <init>()").toList.map fun init =>
      .addCall .other context c.site init (some (.plain made)))

/-- The class object of a receiver; only objects of classes and arrays have one. -/
def classObj? (rules : HeapRules) (o : Obj) : Option Obj :=
  match o.ty with
  | .cls _ | .array _ => some (rules.constant (.cls o.ty))
  | _ => none

/-- New objects at a variable that a modelled call uses. -/
def update (p : Program) (facts : Facts) (s : Reflection) (context : ContextId) (v : VarId)
    (objs : List Obj) (c : ModeledCall ReflectionModel) : Reaction Reflection :=
  match c.call.result with
  | none => { state := s }
  | some result =>
    match c.key with
    | .forName =>
      if c.call.args.head? = some v then s.lookUp p facts context c result objs else { state := s }
    | .newInstance =>
      if c.call.base = some v then
        let made := (objs.filterMap (instantiable? p)).map (instantiate p context c result)
        { state := s, created := made.map (·.1), commands := made.flatMap (·.2) }
      else { state := s }
    | .getClass =>
      if c.call.base = some v then
        let classes := objs.filterMap (classObj? facts.heap.rules)
        { state := s
          created := classes
          commands := Command.pointsTo (.var context result) (classes.map ObjRef.plain) }
      else { state := s }
    | .methodInvoke | .constructorNewInstance => { state := s }

def updateAll (p : Program) (facts : Facts) (context : ContextId) (v : VarId) (objs : List Obj)
    (s : Reflection) : List (ModeledCall ReflectionModel) → Reaction Reflection
  | [] => { state := s }
  | c :: rest =>
    let r := s.update p facts context v objs c
    let later := updateAll p facts context v objs r.state rest
    { state := later.state
      created := r.created ++ later.created
      commands := r.commands ++ later.commands }

def react (p : Program) (s : Reflection) (facts : Facts) : Event → Reaction Reflection
  | .methodReached m => { state := { s with models := s.models.recordMethod p m } }
  | .csMethodReached m =>
    match facts.elements.method? m with
    | none => { state := s }
    | some (context, method) =>
      let made := (s.models.sitesIn method).filterMap fun c =>
        if c.key.isUnknown then c.call.result.map fun result => (result, unknownObj c.site s.objectTy)
        else none
      { state := s
        created := made.map (·.2)
        commands := made.map fun (result, o) => Command.varObj context result o }
  | .arrived pointer delta =>
    match facts.elements.pointer? pointer with
    | some (.var context v) =>
      updateAll p facts context v (delta.toList.filterMap facts.obj?) s (s.models.watching v)
    | _ => { state := s }
  | _ => { state := s }

end Reflection

end PointsTo
