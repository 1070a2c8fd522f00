import PointsTo.Document.Doc
import PointsTo.Program.Builder

/-!
Listings: programs as documents in which everything is named by its position. A type is the name of
a primitive type, the position of a class, or a list that holds the type of its elements. A
statement is a list that starts with a word, over local variable numbers.
-/
namespace PointsTo

namespace Doc

def get (d : Doc) (name : String) : Doc :=
  match d with
  | map entries => (entries.findSome? fun
    | (str key, value) => if key = name then some value else none
    | _ => none).getD null
  | _ => null

def items : Doc → List Doc
  | list items => items
  | _ => []

/-- Every item of a list; anything else has none. -/
def each? (read : Doc → Option α) (d : Doc) : Option (List α) := d.items.mapM read

def number? : Doc → Option Nat
  | ofNat n => some n
  | _ => none

def isTrue : Doc → Bool
  | bool b => b
  | _ => false

end Doc

namespace Ty

def ofListing? : Doc → Option Ty
  | .str "void" => some void
  | .str "null" => some null
  | .str name => (Prim.ofName? name).map prim
  | .ofNat c => some (cls c)
  | .list [t] => (ofListing? t).map array
  | _ => none

def toListing : Ty → Doc
  | prim p => .str p.name
  | cls c => .ofNat c
  | array t => .list [t.toListing]
  | null => .str "null"
  | void => .str "void"

end Ty

namespace Literal

/-- A floating point number is written by its bits, or by the number of its halves. -/
def ofListing? : Doc → Option Literal
  | .list [.str "null"] => some null
  | .list [.str "int", .int n] => some (int n)
  | .list [.str "float", .str bits] => (Text.unsigned? Text.wordBound bits.toList).map float
  | .list [.str "half", .int n] => some (ofFloat (Float.ofInt n / 2))
  | .list [.str "str", .str s] => some (str s)
  | .list [.str "class", t] => (Ty.ofListing? t).map cls
  | _ => none

def toListing : Literal → Doc
  | null => .list [.str "null"]
  | int n => .list [.str "int", .int n]
  | float bits => .list [.str "float", .str (toString bits)]
  | str s => .list [.str "str", .str s]
  | cls t => .list [.str "class", t.toListing]

end Literal

namespace InvokeKind

def ofName? : String → Option InvokeKind
  | "virtual" => some .virtual
  | "interface" => some .interface
  | "special" => some .special
  | "static" => some .static
  | "dynamic" => some .dynamic
  | _ => none

end InvokeKind

namespace MethodRef

/-- A method by its position, or a class and a spelling. -/
def ofListing? (p : Program) : Doc → Option MethodRef
  | .ofNat m => some (p.refTo m)
  | .list [.ofNat c, .str subsignature] => some ⟨c, subsignature⟩
  | _ => none

end MethodRef

namespace Stmt

/-- A statement by its first word; a field access without base is static. -/
def ofWord? (p : Program) : String → List Doc → Option Stmt
  | "new", [.ofNat lhs, t] => (Ty.ofListing? t).map (new lhs)
  | "lit", [.ofNat lhs, l] => (Literal.ofListing? l).map (literal lhs)
  | "copy", [.ofNat lhs, .ofNat rhs] => some (copy lhs rhs)
  | "cast", [.ofNat lhs, .ofNat rhs, t] => (Ty.ofListing? t).map (cast lhs rhs)
  | "load", [.ofNat lhs, .null, .ofNat f] => some (loadStatic lhs f)
  | "load", [.ofNat lhs, .ofNat base, .ofNat f] => some (loadField lhs base f)
  | "store", [.null, .ofNat f, .ofNat rhs] => some (storeStatic f rhs)
  | "store", [.ofNat base, .ofNat f, .ofNat rhs] => some (storeField base f rhs)
  | "aload", [.ofNat lhs, .ofNat base] => some (loadArray lhs base)
  | "astore", [.ofNat base, .ofNat rhs] => some (storeArray base rhs)
  | "call", [.str kind, target, base, args, result] => do
    return invoke {
      kind := ← InvokeKind.ofName? kind
      target := ← MethodRef.ofListing? p target
      base := ← base.optional? Doc.number?
      args := ← args.each? Doc.number?
      result := ← result.optional? Doc.number? }
  | "ret", [v] => (v.optional? Doc.number?).map ret
  | "throw", [.ofNat v] => some (throw v)
  | "catch", [.ofNat v] => some (caught v)
  | "nop", [] => some nop
  | _, _ => none

def ofListing? (p : Program) : Doc → Option Stmt
  | .list (.str word :: rest) => ofWord? p word rest
  | _ => none

end Stmt

def CatchHandler.ofListing? : Doc → Option CatchHandler
  | .list [.ofNat start, .ofNat stop, t, .ofNat v] => do
    return ⟨start, stop, ← t.optional? Ty.ofListing?, v⟩
  | _ => none

namespace BodyText

def localOf? : Doc → Option (String × Ty)
  | .list [.str name, t] => (Ty.ofListing? t).map (name, ·)
  | _ => none

def ofListing? (p : Program) (d : Doc) : Option BodyText := do
  return {
    locals := ← (d.get "locals").each? localOf?
    stmts := ← (d.get "stmts").each? (Stmt.ofListing? p)
    handlers := ← (d.get "handlers").each? CatchHandler.ofListing? }

end BodyText

namespace Program

def addListedClass? (p : Program) (d : Doc) : Option Program := do
  let c := p.classes.size
  let name ← (d.get "name").text?
  let interfaces ← (d.get "ifaces").each? Doc.number?
  let p ← if (d.get "interface").isTrue then some (p.addInterface name interfaces) else do
    let superclass ← (d.get "super").optional? Doc.number?
    some ((p.addClass name superclass).addInterfaces c interfaces)
  let p := if (d.get "abstract").isTrue then p.setAbstract c else p
  return if (d.get "lib").isTrue then p.setLibrary c else p

def addListedField? (p : Program) (d : Doc) : Option Program := do
  return p.addField (← (d.get "class").number?) (← (d.get "name").text?)
    (← Ty.ofListing? (d.get "type")) (d.get "static").isTrue

def addListedMethod? (p : Program) (d : Doc) : Option Program := do
  let flags := (((d.get "flags").text?).getD "").toList
  let ret ← (d.get "ret").optional? Ty.ofListing?
  return p.addMethod (← (d.get "class").number?) (← (d.get "name").text?)
    (← (d.get "params").each? Ty.ofListing?) (ret.getD .void)
    ⟨flags.contains 's', flags.contains 'a', flags.contains 'n'⟩

def setListedBody? (p : Program) (m : MethodId) : Doc → Option Program
  | .null => some p
  | d => (BodyText.ofListing? p d).map (p.setBody m)

def ofListing? (d : Doc) : Option Program := do
  let methods := (d.get "methods").items
  let p ← (d.get "classes").items.foldlM addListedClass? {}
  let p ← (d.get "fields").items.foldlM addListedField? p
  let p ← methods.foldlM addListedMethod? p
  let p ← methods.zipIdx.foldlM (fun p (m, i) => p.setListedBody? i (m.get "body")) p
  match d.get "main" with
  | .ofNat m => return p.setMain m
  | _ => return p

def localVar? (p : Program) (m : MethodId) (number : Nat) : Option VarId :=
  (p.body? m).bind fun b => b.vars[number]?

end Program

end PointsTo
