import PointsTo.Program.Basic

/-!
Abstract objects. An object stands for everything allocated at one statement, for a constant, or
for something that no statement allocates; the latter carries a descriptor and a key.
-/
namespace PointsTo

/-- What an object without an allocation stands for; different descriptors never share an object. -/
inductive Descriptor
  | null | number | entryPoint | reflective | unknownReflective | taint | native | mergedString
  | thread
  deriving DecidableEq

namespace Descriptor

def all : List Descriptor :=
  [null, number, entryPoint, reflective, unknownReflective, taint, native, mergedString, thread]

def name : Descriptor → String
  | null => "NullObj"
  | number => "NumberObj"
  | entryPoint => "EntryPointObj"
  | reflective => "ReflectiveObj"
  | unknownReflective => "UnknownReflectiveObj"
  | taint => "TaintObj"
  | native => "NativeObj"
  | mergedString => "MergedObj"
  | thread => "ThreadObj"

def ofName? (name : String) : Option Descriptor := all.find? fun d => d.name == name

end Descriptor

/-- Tells objects of one descriptor apart. -/
inductive MockKey
  | name (text : String)
  | stmt (site : StmtRef)
  | param (method : MethodId) (index : Nat)
  | literal (value : Literal)
  | type (ty : Ty)
  | index (i : Nat)
  deriving DecidableEq

inductive Origin
  | allocated (site : StmtRef)
  | constant (value : Literal)
  /-- The container is the method in which the object counts as allocated. -/
  | mock (descriptor : Descriptor) (key : MockKey) (container : Option MethodId)
  deriving DecidableEq

structure Obj where
  origin : Origin
  ty : Ty
  deriving DecidableEq

namespace Obj

def mock (descriptor : Descriptor) (key : MockKey) (ty : Ty) : Obj := ⟨.mock descriptor key none, ty⟩

def mockIn (descriptor : Descriptor) (key : MockKey) (ty : Ty) (container : MethodId) : Obj :=
  ⟨.mock descriptor key (some container), ty⟩

def descriptor? (o : Obj) : Option Descriptor :=
  match o.origin with
  | .mock d _ _ => some d
  | _ => none

def site? (o : Obj) : Option StmtRef :=
  match o.origin with
  | .allocated site => some site
  | _ => none

def mockKey? (o : Obj) : Option MockKey :=
  match o.origin with
  | .mock _ key _ => some key
  | _ => none

def constant? (o : Obj) : Option Literal :=
  match o.origin with
  | .constant value => some value
  | _ => none

/-- The method in which the object is, or counts as, allocated. -/
def container? (o : Obj) : Option MethodId :=
  match o.origin with
  | .allocated site => some site.method
  | .mock _ _ container => container
  | .constant _ => none

def isTaint (o : Obj) : Bool := o.descriptor? == some .taint

end Obj

end PointsTo
