/-!
Types of an analyzed program. Classes, interfaces and arrays are reference types, and so is the
type of `null`, which lies below all of them.
-/
namespace PointsTo

/-- Position of a class or interface in its program. -/
abbrev ClassId := Nat

inductive Prim
  | boolean | byte | char | short | int | long | float | double
  deriving DecidableEq

namespace Prim

def all : List Prim := [boolean, byte, char, short, int, long, float, double]

def name : Prim → String
  | boolean => "boolean"
  | byte => "byte"
  | char => "char"
  | short => "short"
  | int => "int"
  | long => "long"
  | float => "float"
  | double => "double"

def ofName? (name : String) : Option Prim := all.find? fun p => p.name == name

end Prim

inductive Ty
  | prim (p : Prim)
  | cls (c : ClassId)
  | array (elem : Ty)
  | null
  | void
  deriving DecidableEq

namespace Ty

def isReference : Ty → Bool
  | cls _ | array _ | null => true
  | prim _ | void => false

def class? : Ty → Option ClassId
  | cls c => some c
  | _ => none

def elem? : Ty → Option Ty
  | array t => some t
  | _ => none

def arrayDepth : Ty → Nat
  | array t => t.arrayDepth + 1
  | _ => 0

/-- What is left when no array is left. -/
def innermost : Ty → Ty
  | array t => t.innermost
  | t => t

/-- The class type of `c`, or the type of `null` where a program lacks the class. -/
def ofClass? : Option ClassId → Ty
  | some c => cls c
  | none => null

end Ty

end PointsTo
