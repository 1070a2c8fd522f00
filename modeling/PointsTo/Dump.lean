import PointsTo.Heap.Obj
import PointsTo.Program.Names
import PointsTo.Text.Quoted

/-!
Dumps: texts that show a value by its constructors, as they stand in object descriptions and
diagnostics. A handle is written with the name of its kind.
-/
namespace PointsTo

def dumpApp (head : String) (args : List String) : String :=
  head ++ "(" ++ Text.join ", " args ++ ")"

def dumpRecord (head : String) (fields : List (String × String)) : String :=
  head ++ " \x7b " ++ Text.join ", " (fields.map fun (name, value) => name ++ ": " ++ value) ++ " \x7d"

def dumpOption : Option String → String
  | some text => dumpApp "Some" [text]
  | none => "None"

def dumpHandle (kind : String) (id : Nat) : String := dumpApp kind [toString id]

def dumpBool (b : Bool) : String := if b then "true" else "false"

def Prim.dump : Prim → String
  | boolean => "Boolean"
  | byte => "Byte"
  | char => "Char"
  | short => "Short"
  | int => "Int"
  | long => "Long"
  | float => "Float"
  | double => "Double"

def Ty.dump : Ty → String
  | prim p => dumpApp "Primitive" [p.dump]
  | cls c => dumpApp "Class" [dumpHandle "ClassId" c]
  | array t => dumpApp "Array" [t.dump]
  | null => "Null"
  | void => "Void"

def StmtRef.dump (s : StmtRef) : String :=
  dumpRecord "StmtRef" [("method", dumpHandle "MethodId" s.method), ("index", toString s.index)]

def Literal.dump : Literal → String
  | null => "Null"
  | int value => dumpApp "Int" [toString value]
  | float bits => dumpApp "Float" [toString bits]
  | str text => dumpApp "String" [Text.quote text]
  | cls ty => dumpApp "Class" [ty.dump]

def MockKey.dump : MockKey → String
  | name text => dumpApp "Name" [Text.quote text]
  | stmt site => dumpApp "Stmt" [site.dump]
  | param m i => dumpApp "Param" [dumpHandle "MethodId" m, toString i]
  | literal value => dumpApp "Literal" [value.dump]
  | type ty => dumpApp "Type" [ty.dump]
  | index i => dumpApp "Index" [toString i]

def Obj.describe (p : Program) (o : Obj) : String :=
  let ty := p.tyName o.ty
  match o.origin with
  | .allocated site =>
    "NewObj\x7b" ++ p.methodSignature site.method ++ "[" ++ toString site.index ++ "]@new " ++ ty ++
      "\x7d"
  | .constant value => "ConstantObj\x7b" ++ ty ++ ": " ++ value.dump ++ "\x7d"
  | .mock d key _ => "MockObj\x7b<" ++ d.name ++ ">: " ++ key.dump ++ ", " ++ ty ++ "\x7d"

end PointsTo
