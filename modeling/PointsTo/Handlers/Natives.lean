import PointsTo.Handlers.Models

/-!
Native methods that move objects: copying between arrays, copying an array, and cloning.
-/
namespace PointsTo

inductive NativeModel
  | arrayCopy | copyOf | clone
  deriving DecidableEq

namespace NativeModel

def dump : NativeModel → String
  | arrayCopy => "ArrayCopy"
  | copyOf => "ArraysCopyOf"
  | clone => "ObjectClone"

def table : List (String × NativeModel) :=
  [("<java.lang.System: void arraycopy(java.lang.Object,int,java.lang.Object,int,int)>", arrayCopy),
    ("<java.util.Arrays: java.lang.Object[] copyOf(java.lang.Object[],int)>", copyOf),
    ("<java.lang.Object: java.lang.Object clone()>", clone)]

end NativeModel

/-- A number for a statement, different for different statements. -/
def StmtRef.code (site : StmtRef) : Nat := site.method <<< 32 + site.index

structure Natives where
  models : CallModels NativeModel

namespace Natives

def ofProgram (p : Program) : Natives := ⟨CallModels.ofProgram p NativeModel.table⟩

def elementFlow (origin : String) (site : StmtRef) (source target : ObjRef) : Command :=
  .addFlow (.other { origin, key := site.code }) (.element source) (.element target)

def copyObj? (p : Program) (c : ModeledCall NativeModel) : Option Obj :=
  ((p.resolve? c.call.target).bind fun m => p.methods[m]?).map fun decl =>
    Obj.mockIn .native (.stmt c.site) decl.ret c.site.method

/-- Elements of the copied arrays flow to the elements of the copy. -/
def copyElements (p : Program) (c : ModeledCall NativeModel) (sources : ObjSet) :
    List Obj × List Command :=
  match copyObj? p c with
  | none => ([], [])
  | some copy => ([copy], sources.toList.map fun s =>
    elementFlow "native-copyof" c.site (.interned s) (.plain copy))

/-- Elements of every source array flow to those of every target array. -/
def crossElements (c : ModeledCall NativeModel) (sources targets : ObjSet) : List Command :=
  sources.toList.flatMap fun s => targets.toList.map fun t =>
    elementFlow "native-arraycopy" c.site (.interned s) (.interned t)

/-- A modelled call that has a result, in a context that is new. -/
def enterCall (p : Program) (facts : Facts) (context : ContextId) (c : ModeledCall NativeModel) :
    List Obj × List Command :=
  match c.call.result with
  | none => ([], [])
  | some result =>
    match c.key with
    | .arrayCopy => ([], [])
    | .clone => ([], c.call.base.toList.map fun base =>
      .addFlow (.plain .localAssign) (.var context base) (.var context result))
    | .copyOf =>
      let made := (copyObj? p c).toList
      let (created, flows) := match c.call.args.head?.bind (facts.varPts? context) with
        | some sources => copyElements p c sources
        | none => ([], [])
      (made ++ created, made.map (Command.varObj context result) ++ flows)

/-- New objects at a position of the arguments of a modelled call. -/
def updateCall (p : Program) (facts : Facts) (context : ContextId) (c : ModeledCall NativeModel)
    (position : Nat) (delta : ObjSet) : List Obj × List Command :=
  match c.key, position with
  | .copyOf, 0 => copyElements p c delta
  | .arrayCopy, 0 =>
    match c.call.args[2]? with
    | none => ([], [])
    | some target => ([], crossElements c delta ((facts.varPts? context target).getD ObjSet.empty))
  | .arrayCopy, 2 =>
    match c.call.args.head? with
    | none => ([], [])
    | some source => ([], crossElements c ((facts.varPts? context source).getD ObjSet.empty) delta)
  | _, _ => ([], [])

/-- New objects at a variable that modelled calls use as arguments. -/
def update (p : Program) (facts : Facts) (s : Natives) (context : ContextId) (v : VarId)
    (delta : ObjSet) : List (List Obj × List Command) :=
  (s.models.watching v).flatMap fun c =>
    if c.key = .clone || (facts.elements.findMethod? context c.site.method).isNone then []
    else c.call.args.zipIdx.filterMap fun (arg, position) =>
      if arg = v then some (updateCall p facts context c position delta) else none

def react (p : Program) (s : Natives) (facts : Facts) : Event → Reaction Natives
  | .methodReached m => { state := ⟨s.models.recordMethod p m⟩ }
  | .csMethodReached m =>
    match facts.elements.method? m with
    | none => { state := s }
    | some (context, method) =>
      let parts := (s.models.sitesIn method).map (enterCall p facts context)
      { state := s, created := parts.flatMap (·.1), commands := parts.flatMap (·.2) }
  | .arrived pointer delta =>
    match facts.elements.pointer? pointer with
    | some (.var context v) =>
      let parts := s.update p facts context v delta
      { state := s, created := parts.flatMap (·.1), commands := parts.flatMap (·.2) }
    | _ => { state := s }
  | _ => { state := s }

end Natives

end PointsTo
