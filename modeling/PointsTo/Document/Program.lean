import PointsTo.Document.Doc
import PointsTo.Dump
import PointsTo.Program.Basic

/-!
Program parts as documents, written and read. A variant is its name, or a map from its name to its
content; a structure is a map of its fields, or a list of them in order.
-/
namespace PointsTo

namespace Doc

def variant (name : String) (content : Doc) : Doc := .map [(.str name, content)]

/-- The name and content of a variant; one without content may be written by its name. -/
def variant? : Doc → Option (String × Doc)
  | .str name => some (name, .null)
  | .map [(.str name, content)] => some (name, content)
  | _ => none

/-- The fields of a structure; a list must hold all of them. -/
def parts? (names : List String) : Doc → Option Fields
  | .list items => if items.length = names.length then some (names.zip items) else none
  | .map entries => (Doc.map entries).fields? false names
  | _ => none

def handle? : Doc → Option Nat := nat? (1 <<< 32)

end Doc

namespace Prim

def toDoc (p : Prim) : Doc := .str p.dump

def ofDoc? (d : Doc) : Option Prim :=
  match d.variant? with
  | some (name, .null) => all.find? fun p => p.dump == name
  | _ => none

end Prim

namespace Ty

def toDoc : Ty → Doc
  | prim p => .variant "Primitive" p.toDoc
  | cls c => .variant "Class" (.ofNat c)
  | array t => .variant "Array" t.toDoc
  | null => .str "Null"
  | void => .str "Void"

def ofDoc? : Doc → Option Ty
  | .str "Null" => some .null
  | .str "Void" => some .void
  | .map [(.str "Null", .null)] => some .null
  | .map [(.str "Void", .null)] => some .void
  | .map [(.str "Primitive", d)] => (Prim.ofDoc? d).map prim
  | .map [(.str "Class", d)] => d.handle?.map cls
  | .map [(.str "Array", d)] => (ofDoc? d).map array
  | _ => none

end Ty

namespace Literal

def toDoc : Literal → Doc
  | null => .str "Null"
  | int n => .variant "Int" (.int n)
  | float bits => .variant "Float" (.ofNat bits)
  | str s => .variant "String" (.str s)
  | cls t => .variant "Class" t.toDoc

def ofDoc? (d : Doc) : Option Literal :=
  match d.variant? with
  | some ("Null", .null) => some null
  | some ("Int", d) => d.int64?.map int
  | some ("Float", d) => (d.nat? (1 <<< 64)).map float
  | some ("String", d) => d.text?.map str
  | some ("Class", d) => (Ty.ofDoc? d).map cls
  | _ => none

end Literal

namespace StmtRef

def toDoc (s : StmtRef) : Doc := .record [("method", .ofNat s.method), ("index", .ofNat s.index)]

def ofDoc? (d : Doc) : Option StmtRef := do
  let fs ← d.parts? ["method", "index"]
  return ⟨← fs.required? Doc.handle? "method", ← fs.required? Doc.handle? "index"⟩

end StmtRef

namespace MethodRef

def toDoc (r : MethodRef) : Doc :=
  .record [("class", .ofNat r.owner), ("subsignature", .str r.subsignature)]

def ofDoc? (d : Doc) : Option MethodRef := do
  let fs ← d.parts? ["class", "subsignature"]
  return ⟨← fs.required? Doc.handle? "class", ← fs.required? Doc.text? "subsignature"⟩

end MethodRef

namespace InvokeKind

def all : List InvokeKind := [.virtual, .interface, .special, .static, .dynamic]

def title : InvokeKind → String
  | .virtual => "Virtual"
  | .interface => "Interface"
  | .special => "Special"
  | .static => "Static"
  | .dynamic => "Dynamic"

def toDoc (k : InvokeKind) : Doc := .str k.title

def ofDoc? (d : Doc) : Option InvokeKind :=
  match d.variant? with
  | some (name, .null) => all.find? fun k => k.title == name
  | _ => none

end InvokeKind

namespace Invoke

def toDoc (c : Invoke) : Doc :=
  .record [("kind", c.kind.toDoc), ("method_ref", c.target.toDoc), ("base", .ofOption .ofNat c.base),
    ("args", .list (c.args.map .ofNat)), ("result", .ofOption .ofNat c.result)]

def ofDoc? (d : Doc) : Option Invoke := do
  let fs ← d.parts? ["kind", "method_ref", "base", "args", "result"]
  return {
    kind := ← fs.required? InvokeKind.ofDoc? "kind"
    target := ← fs.required? MethodRef.ofDoc? "method_ref"
    base := ← fs.absent? Doc.handle? "base"
    args := ← fs.required? (Doc.list? Doc.handle?) "args"
    result := ← fs.absent? Doc.handle? "result" }

end Invoke

namespace Stmt

def toDoc : Stmt → Doc
  | new v ty => .variant "New" (.record [("lhs", .ofNat v), ("ty", ty.toDoc)])
  | literal v value => .variant "AssignLiteral" (.record [("lhs", .ofNat v), ("literal", value.toDoc)])
  | copy v w => .variant "Copy" (.record [("lhs", .ofNat v), ("rhs", .ofNat w)])
  | cast v w ty => .variant "Cast" (.record [("lhs", .ofNat v), ("rhs", .ofNat w), ("ty", ty.toDoc)])
  | loadField v base f =>
    .variant "LoadField" (.record [("lhs", .ofNat v), ("base", .ofNat base), ("field", .ofNat f)])
  | loadStatic v f =>
    .variant "LoadField" (.record [("lhs", .ofNat v), ("base", .null), ("field", .ofNat f)])
  | storeField base f w =>
    .variant "StoreField" (.record [("base", .ofNat base), ("field", .ofNat f), ("rhs", .ofNat w)])
  | storeStatic f w =>
    .variant "StoreField" (.record [("base", .null), ("field", .ofNat f), ("rhs", .ofNat w)])
  | loadArray v base => .variant "LoadArray" (.record [("lhs", .ofNat v), ("base", .ofNat base)])
  | storeArray base w => .variant "StoreArray" (.record [("base", .ofNat base), ("rhs", .ofNat w)])
  | invoke call => .variant "Invoke" call.toDoc
  | ret v => .variant "Return" (.record [("value", .ofOption .ofNat v)])
  | throw v => .variant "Throw" (.record [("value", .ofNat v)])
  | caught v => .variant "Catch" (.record [("lhs", .ofNat v)])
  | nop => .str "Nop"

def ofDoc? (d : Doc) : Option Stmt :=
  match d.variant? with
  | none => none
  | some (name, d) =>
    let var (fs : Doc.Fields) (field : String) : Option Nat := fs.required? Doc.handle? field
    match name with
    | "New" => do
      let fs ← d.parts? ["lhs", "ty"]
      return .new (← var fs "lhs") (← fs.required? Ty.ofDoc? "ty")
    | "AssignLiteral" => do
      let fs ← d.parts? ["lhs", "literal"]
      return .literal (← var fs "lhs") (← fs.required? Literal.ofDoc? "literal")
    | "Copy" => do
      let fs ← d.parts? ["lhs", "rhs"]
      return .copy (← var fs "lhs") (← var fs "rhs")
    | "Cast" => do
      let fs ← d.parts? ["lhs", "rhs", "ty"]
      return .cast (← var fs "lhs") (← var fs "rhs") (← fs.required? Ty.ofDoc? "ty")
    | "LoadField" => do
      let fs ← d.parts? ["lhs", "base", "field"]
      let v ← var fs "lhs"
      let f ← var fs "field"
      match ← fs.absent? Doc.handle? "base" with
      | some base => return .loadField v base f
      | none => return .loadStatic v f
    | "StoreField" => do
      let fs ← d.parts? ["base", "field", "rhs"]
      let w ← var fs "rhs"
      let f ← var fs "field"
      match ← fs.absent? Doc.handle? "base" with
      | some base => return .storeField base f w
      | none => return .storeStatic f w
    | "LoadArray" => do
      let fs ← d.parts? ["lhs", "base"]
      return .loadArray (← var fs "lhs") (← var fs "base")
    | "StoreArray" => do
      let fs ← d.parts? ["base", "rhs"]
      return .storeArray (← var fs "base") (← var fs "rhs")
    | "Invoke" => (Invoke.ofDoc? d).map .invoke
    | "Return" => do
      let fs ← d.parts? ["value"]
      return .ret (← fs.absent? Doc.handle? "value")
    | "Throw" => do
      let fs ← d.parts? ["value"]
      return .throw (← var fs "value")
    | "Catch" => do
      let fs ← d.parts? ["lhs"]
      return .caught (← var fs "lhs")
    | "Nop" => if d.isNothing then some .nop else none
    | _ => none

end Stmt

namespace CatchHandler

def toDoc (h : CatchHandler) : Doc :=
  .record [("range", .record [("start", .ofNat h.start), ("end", .ofNat h.stop)]),
    ("catch_type", .ofOption Ty.toDoc h.catchTy), ("var", .ofNat h.var)]

def range? (d : Doc) : Option (Nat × Nat) := do
  let fs ← match d with
    | .list _ => d.parts? ["start", "end"]
    | _ => d.onlyFields? false ["start", "end"]
  return (← fs.required? Doc.handle? "start", ← fs.required? Doc.handle? "end")

def ofDoc? (d : Doc) : Option CatchHandler := do
  let fs ← d.parts? ["range", "catch_type", "var"]
  let (start, stop) ← fs.required? range? "range"
  return {
    start, stop
    catchTy := ← fs.absent? Ty.ofDoc? "catch_type"
    var := ← fs.required? Doc.handle? "var" }

end CatchHandler

namespace Body

def toDoc (b : Body) : Doc :=
  .record [("this", .ofOption .ofNat b.this), ("params", .list (b.params.map .ofNat)),
    ("vars", .list (b.vars.map .ofNat)), ("stmts", .list (b.stmts.map Stmt.toDoc)),
    ("return_vars", .list (b.returns.map .ofNat)),
    ("handlers", .list (b.handlers.map CatchHandler.toDoc))]

def ofDoc? (d : Doc) : Option Body := do
  let fs ← d.parts? ["this", "params", "vars", "stmts", "return_vars", "handlers"]
  return {
    this := ← fs.absent? Doc.handle? "this"
    params := ← fs.required? (Doc.list? Doc.handle?) "params"
    vars := ← fs.required? (Doc.list? Doc.handle?) "vars"
    stmts := ← fs.required? (Doc.list? Stmt.ofDoc?) "stmts"
    returns := ← fs.required? (Doc.list? Doc.handle?) "return_vars"
    handlers := ← fs.required? (Doc.list? CatchHandler.ofDoc?) "handlers" }

end Body

namespace VarDecl

def toDoc (v : VarDecl) : Doc :=
  .record [("name", .str v.name), ("ty", v.ty.toDoc), ("method", .ofNat v.method)]

def ofDoc? (d : Doc) : Option VarDecl := do
  let fs ← d.parts? ["name", "ty", "method"]
  return ⟨← fs.required? Doc.text? "name", ← fs.required? Ty.ofDoc? "ty",
    ← fs.required? Doc.handle? "method"⟩

end VarDecl

namespace FieldDecl

def toDoc (f : FieldDecl) : Doc :=
  .record [("name", .str f.name), ("declaring_class", .ofNat f.owner), ("ty", f.ty.toDoc),
    ("is_static", .bool f.isStatic)]

def ofDoc? (d : Doc) : Option FieldDecl := do
  let fs ← d.parts? ["name", "declaring_class", "ty", "is_static"]
  return {
    name := ← fs.required? Doc.text? "name"
    owner := ← fs.required? Doc.handle? "declaring_class"
    ty := ← fs.required? Ty.ofDoc? "ty"
    isStatic := ← fs.required? Doc.bool? "is_static" }

end FieldDecl

namespace MethodFlags

def toDoc (f : MethodFlags) : Doc :=
  .record [("is_static", .bool f.isStatic), ("is_abstract", .bool f.isAbstract),
    ("is_native", .bool f.isNative)]

def ofDoc? (d : Doc) : Option MethodFlags := do
  let fs ← d.parts? ["is_static", "is_abstract", "is_native"]
  return {
    isStatic := ← fs.required? Doc.bool? "is_static"
    isAbstract := ← fs.required? Doc.bool? "is_abstract"
    isNative := ← fs.required? Doc.bool? "is_native" }

end MethodFlags

namespace MethodDecl

def toDoc (m : MethodDecl) : Doc :=
  .record [("name", .str m.name), ("declaring_class", .ofNat m.owner),
    ("param_types", .list (m.params.map Ty.toDoc)), ("return_type", m.ret.toDoc),
    ("flags", m.flags.toDoc), ("subsignature", .str m.subsignature),
    ("ir", .ofOption Body.toDoc m.body)]

def ofDoc? (d : Doc) : Option MethodDecl := do
  let fs ← d.parts?
    ["name", "declaring_class", "param_types", "return_type", "flags", "subsignature", "ir"]
  return {
    name := ← fs.required? Doc.text? "name"
    owner := ← fs.required? Doc.handle? "declaring_class"
    params := ← fs.required? (Doc.list? Ty.ofDoc?) "param_types"
    ret := ← fs.required? Ty.ofDoc? "return_type"
    flags := ← fs.required? MethodFlags.ofDoc? "flags"
    subsignature := ← fs.required? Doc.text? "subsignature"
    body := ← fs.absent? Body.ofDoc? "ir" }

end MethodDecl

namespace ClassDecl

def toDoc (c : ClassDecl) : Doc :=
  .record [("name", .str c.name), ("super_class", .ofOption .ofNat c.superclass),
    ("interfaces", .list (c.interfaces.map .ofNat)), ("is_interface", .bool c.isInterface),
    ("is_abstract", .bool c.isAbstract), ("is_application", .bool c.isApplication),
    ("methods", .list (c.methods.map .ofNat)), ("fields", .list (c.fields.map .ofNat))]

def ofDoc? (d : Doc) : Option ClassDecl := do
  let fs ← d.parts? ["name", "super_class", "interfaces", "is_interface", "is_abstract",
    "is_application", "methods", "fields"]
  return {
    name := ← fs.required? Doc.text? "name"
    superclass := ← fs.absent? Doc.handle? "super_class"
    interfaces := ← fs.required? (Doc.list? Doc.handle?) "interfaces"
    isInterface := ← fs.required? Doc.bool? "is_interface"
    isAbstract := ← fs.required? Doc.bool? "is_abstract"
    isApplication := ← fs.required? Doc.bool? "is_application"
    methods := ← fs.required? (Doc.list? Doc.handle?) "methods"
    fields := ← fs.required? (Doc.list? Doc.handle?) "fields" }

end ClassDecl

end PointsTo
