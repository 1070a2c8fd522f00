import PointsTo.Program.Basic
import PointsTo.Text.Blank
import PointsTo.Text.Split

/-!
Names of types and signatures of members, and finding a type or member by them. Where two
declarations share a name, the later one is found.
-/
namespace PointsTo

def lastIdx? (holds : α → Bool) : List α → Option Nat
  | [] => none
  | a :: rest =>
    match lastIdx? holds rest with
    | some i => some (i + 1)
    | none => if holds a then some 0 else none

/-- The spelling of a signature that lookups compare: no blanks around it, and one blank less after
each comma. -/
def normalizeChars : List Char → List Char
  | ',' :: ' ' :: rest => ',' :: normalizeChars rest
  | c :: rest => c :: normalizeChars rest
  | [] => []

def normalizeSignature (s : String) : String :=
  String.ofList (normalizeChars (Text.trimChars s.toList))

namespace Program

def className (p : Program) (c : ClassId) : String :=
  match p.classes[c]? with
  | some d => d.name
  | none => ""

def tyName (p : Program) : Ty → String
  | .prim q => q.name
  | .cls c => p.className c
  | .array t => p.tyName t ++ "[]"
  | .null => "null"
  | .void => "void"

/-- The spelling `R name(P1,P2)` of a method. -/
def spell (p : Program) (name : String) (params : List Ty) (ret : Ty) : String :=
  p.tyName ret ++ " " ++ name ++ "(" ++ Text.join "," (params.map p.tyName) ++ ")"

/-- The signature `<C: R name(P1,P2)>` of a method. -/
def refSignature (p : Program) (r : MethodRef) : String :=
  "<" ++ p.className r.owner ++ ": " ++ r.subsignature ++ ">"

def methodSignature (p : Program) (m : MethodId) : String :=
  match p.methods[m]? with
  | some d => p.refSignature ⟨d.owner, d.subsignature⟩
  | none => ""

/-- The signature `<C: T name>` of a field. -/
def fieldSignature (p : Program) (f : FieldId) : String :=
  match p.fields[f]? with
  | some d => "<" ++ p.className d.owner ++ ": " ++ p.tyName d.ty ++ " " ++ d.name ++ ">"
  | none => ""

def classByName? (p : Program) (name : String) : Option ClassId :=
  lastIdx? (fun d => d.name == name) p.classes.toList

def methodBySignature? (p : Program) (signature : String) : Option MethodId :=
  let wanted := normalizeSignature signature
  lastIdx? (fun d => p.refSignature ⟨d.owner, d.subsignature⟩ == wanted) p.methods.toList

def fieldBySignature? (p : Program) (signature : String) : Option FieldId :=
  let wanted := normalizeSignature signature
  lastIdx? (fun f => p.fieldSignature f == wanted) (List.range p.fields.size)

/-- The type that a name without array marks spells. -/
def baseTy? (p : Program) (name : String) : Option Ty :=
  if name = "void" then some .void
  else if name = "null" then some .null
  else match Prim.ofName? name with
    | some q => some (.prim q)
    | none => (p.classByName? name).map .cls

/-- Reads a type name, blanks around the name and before each `[]` ignored. The fuel bounds the
number of array marks. -/
def readTy? (p : Program) : Nat → List Char → Option Ty
  | 0, _ => none
  | n + 1, cs =>
    let name := Text.trimChars cs
    match Text.dropSuffix? ['[', ']'] name with
    | some elem => (p.readTy? n elem).map .array
    | none => p.baseTy? (String.ofList name)

def tyByName? (p : Program) (name : String) : Option Ty :=
  p.readTy? (name.toList.length + 1) name.toList

def objectClass? (p : Program) : Option ClassId := p.classByName? "java.lang.Object"

end Program

end PointsTo
