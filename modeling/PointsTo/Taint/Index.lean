import PointsTo.Error
import PointsTo.Program.Hierarchy
import PointsTo.Text.Decimal

/-!
References to a place at a call: the receiver, the result or an argument, and there the value
itself, the elements of an array, or a field. References are written against a method, and are
well formed only if the method has such a place.
-/
namespace PointsTo

inductive Index
  | base
  | result
  | arg (i : Nat)
  deriving DecidableEq

namespace Index

def callVar? (call : Invoke) : Index → Option VarId
  | base => call.base
  | result => call.result
  | arg i => call.args[i]?

def paramVar? (body : Body) : Index → Option VarId
  | base => body.this
  | result => none
  | arg i => body.params[i]?

def text : Index → String
  | base => "base"
  | result => "result"
  | arg i => toString i

def ty (p : Program) (m : MethodId) : Index → Ty
  | base => match p.methods[m]? with
    | some decl => .cls decl.owner
    | none => .null
  | result => match p.methods[m]? with
    | some decl => decl.ret
    | none => .null
  | arg i => ((p.methods[m]?).bind fun decl => decl.params[i]?).getD .null

/-- Place of an index in the order of all: base, result, arguments. -/
def rank : Index → Nat
  | base => 0
  | result => 1
  | arg i => i + 2

end Index

inductive IndexKind
  | var
  | array
  | field (f : FieldId)
  deriving DecidableEq

namespace IndexKind

def rank : IndexKind → Nat
  | var => 0
  | array => 1
  | field f => f + 2

end IndexKind

structure IndexRef where
  index : Index
  kind : IndexKind
  deriving DecidableEq

namespace IndexRef

def var (index : Index) : IndexRef := ⟨index, .var⟩

def text (r : IndexRef) : String :=
  match r.kind with
  | .var => r.index.text
  | .array => r.index.text ++ "[*]"
  | .field f => r.index.text ++ ".FieldId#" ++ toString f

def valueTy (p : Program) (m : MethodId) (r : IndexRef) : Ty :=
  let ty := r.index.ty p m
  match r.kind with
  | .var => ty
  | .array => ty.elem?.getD ty
  | .field f => match p.fields[f]? with
    | some decl => decl.ty
    | none => .null

/-- What stands after the index in a written reference. -/
inductive Suffix
  | none
  | array
  | field (name : List Char)

/-- Cuts a written reference: elements are marked by `[*]` at the end, a field by the first point. -/
def cut (text : List Char) : List Char × Suffix :=
  match Text.dropSuffix? ['[', '*', ']'] text with
  | some before => (before, .array)
  | none =>
    match Text.splitFirst? '.' text with
    | some (before, name) => (before, .field name)
    | none => (text, .none)

def readIndex (m : MethodDecl) (text : List Char) : Except String Index :=
  let word := Text.trimChars text
  if word = "this".toList ∨ word = "base".toList then
    if m.flags.isStatic then .error "static method has no receiver" else .ok .base
  else if word = "result".toList then
    if m.ret = .void then .error "method returns void" else .ok .result
  else
    match Text.unsigned? Text.wordBound word with
    | none => .error "expected an integer, this, base or result"
    | some i =>
      if i < m.params.length then .ok (.arg i)
      else .error ("method has " ++ toString m.params.length ++ " parameter(s)")

def readKind (p : Program) (ty : Ty) : Suffix → Except String IndexKind
  | .none => .ok .var
  | .array =>
    match ty with
    | .array _ => .ok .array
    | _ => .error ("[*] needs an array, found " ++ p.tyName ty)
  | .field name =>
    match ty.class?.bind fun c => p.lookupField? c (String.ofList name) with
    | some f => .ok (.field f)
    | none => .error ("no field '" ++ String.ofList name ++ "' in " ++ p.tyName ty)

def read (p : Program) (m : MethodId) (text : List Char) : Except String IndexRef :=
  match p.methods[m]? with
  | none => .error "no such method"
  | some decl => do
    let (before, suffix) := cut text
    let index ← readIndex decl before
    let kind ← readKind p (index.ty p m) suffix
    .ok ⟨index, kind⟩

def parse (p : Program) (m : MethodId) (text : String) : Except ConfigError IndexRef :=
  (read p m text.toList).mapError (.invalidIndex text (p.methodSignature m))

def key (r : IndexRef) : List Nat := [r.index.rank, r.kind.rank]

end IndexRef

end PointsTo
