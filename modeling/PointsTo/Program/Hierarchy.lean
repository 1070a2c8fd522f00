import PointsTo.Program.Names

/-!
The class hierarchy: supertypes, subtyping, and the method a call reaches. Walks along the hierarchy
are given enough steps for every hierarchy without a cycle, and the search for all supertypes enough
for any hierarchy.
-/
namespace PointsTo.Program

def superclass? (p : Program) (c : ClassId) : Option ClassId := p.classes[c]?.bind (·.superclass)

def interfacesOf (p : Program) (c : ClassId) : List ClassId :=
  match p.classes[c]? with
  | some d => d.interfaces
  | none => []

def isInterface (p : Program) (c : ClassId) : Bool :=
  match p.classes[c]? with
  | some d => d.isInterface
  | none => false

/-- The superclass, then the interfaces that a class names itself. -/
def directSupertypes (p : Program) (c : ClassId) : List ClassId :=
  (p.superclass? c).toList ++ p.interfacesOf c

def superChain (p : Program) : Nat → ClassId → List ClassId
  | 0, _ => []
  | n + 1, c => c :: match p.superclass? c with
    | some d => p.superChain n d
    | none => []

def superclasses (p : Program) (c : ClassId) : List ClassId := p.superChain p.classes.size c

/-- Empties a stack of classes; a class that was not seen before leaves its direct supertypes there. No
answer if more than `n` steps are needed. -/
def gather? (p : Program) : Nat → List ClassId → List ClassId → Option (List ClassId)
  | _, [], seen => some seen
  | 0, _ :: _, _ => none
  | n + 1, c :: stack, seen =>
    if seen.contains c then p.gather? n stack seen
    else p.gather? n ((p.directSupertypes c).reverse ++ stack) (c :: seen)

/-- How often a class of the program names a supertype. -/
def inheritances (p : Program) : Nat :=
  ((List.range p.classes.size).flatMap p.directSupertypes).length

def supertypes (p : Program) (c : ClassId) : List ClassId :=
  (p.gather? (p.inheritances + 1) [c] []).getD []

/-- Whether a class is `top` or lies below it, its superclass asked before its interfaces. No answer if
more than `n` levels of the hierarchy are needed. -/
def leadsTo? (p : Program) (top : ClassId) : Nat → ClassId → Option Bool
  | 0, _ => none
  | n + 1, c => if c = top then some true else (p.directSupertypes c).anyM (p.leadsTo? top n)

def isSubclass (p : Program) (sub sup : ClassId) : Bool :=
  (p.leadsTo? sup (p.classes.size + 1) sub).getD false

/-- Classes that every array type lies below. -/
def isArraySupertype (name : String) : Bool :=
  name == "java.lang.Object" || name == "java.lang.Cloneable" || name == "java.io.Serializable"

def isSubtype (p : Program) : Ty → Ty → Bool
  | .null, t => t.isReference
  | .cls a, .cls b => p.isSubclass a b
  | .array _, .cls b => isArraySupertype (p.className b)
  | .array a, .array b => if a.isReference && b.isReference then p.isSubtype a b else a == b
  | a, b => a == b

def declared? (p : Program) (c : ClassId) (subsignature : String) : Option MethodId :=
  match p.classes[c]? with
  | some d => d.methods.reverse.find? fun m =>
    match p.methods[m]? with
    | some e => e.subsignature == subsignature
    | none => false
  | none => none

/-- The methods that the interfaces above a class declare, by the age of the interface. -/
def interfaceMethods (p : Program) (c : ClassId) (subsignature : String) : List MethodId :=
  (((p.supertypes c).filter p.isInterface).mergeSort (· ≤ ·)).filterMap
    fun i => p.declared? i subsignature

/-- The methods that a class and its superclasses declare, nearest first. -/
def chainMethods (p : Program) (c : ClassId) (subsignature : String) : List MethodId :=
  (p.superclasses c).filterMap fun d => p.declared? d subsignature

/-- The declaration that a reference at a call site means. -/
def resolve? (p : Program) (r : MethodRef) : Option MethodId :=
  match (p.chainMethods r.owner r.subsignature).head? with
  | some m => some m
  | none => (p.interfaceMethods r.owner r.subsignature).head?

/-- The method with code that an object of class `c` executes. -/
def dispatch? (p : Program) (c : ClassId) (subsignature : String) : Option MethodId :=
  match (p.chainMethods c subsignature).find? fun m => !p.isAbstract m with
  | some m => some m
  | none => (p.interfaceMethods c subsignature).find? fun m => !p.isAbstract m

/-- The field of a name in a class or the nearest superclass that has one. -/
def lookupField? (p : Program) (c : ClassId) (name : String) : Option FieldId :=
  (p.superclasses c).findSome? fun d =>
    match p.classes[d]? with
    | some e => e.fields.find? fun f =>
      match p.fields[f]? with
      | some g => g.name == name
      | none => false
    | none => none

/-- The class that calls on a value of the type go through. -/
def dispatchClass? (p : Program) : Ty → Option ClassId
  | .cls c => some c
  | .array _ => p.objectClass?
  | _ => none

/-- The method that a call reaches on a receiver of type `ty`. -/
def callee? (p : Program) (call : Invoke) (ty : Ty) : Option MethodId :=
  if call.kind.isDispatched then
    (p.dispatchClass? ty).bind fun c => p.dispatch? c call.target.subsignature
  else p.resolve? call.target

end PointsTo.Program
