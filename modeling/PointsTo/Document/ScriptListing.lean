import PointsTo.Document.Listing
import PointsTo.Handlers.Script

/-!
Scripts as documents: objects, pointers, tests, commands and rules, each a list that starts with a
word. Variables are a method and a local number in its body.
-/
namespace PointsTo

def MockKey.ofListing? : Doc → Option MockKey
  | .list [.str "name", .str s] => some (name s)
  | .list [.str "stmt", .ofNat m, .ofNat i] => some (stmt (.ofNumber m i))
  | .list [.str "param", .ofNat m, .ofNat i] => some (param m i)
  | .list [.str "lit", l] => (Literal.ofListing? l).map literal
  | .list [.str "type", t] => (Ty.ofListing? t).map type
  | .list [.str "idx", .ofNat n] => some (index n)
  | _ => none

def Obj.ofListing? (rules : HeapRules) : Doc → Option Obj
  | .list [.str "alloc", .ofNat m, .ofNat i, t] =>
    (Ty.ofListing? t).map (rules.allocated (.ofNumber m i))
  | .list [.str "mock", .str d, k, t] => do
    return mock (← Descriptor.ofName? d) (← MockKey.ofListing? k) (← Ty.ofListing? t)
  | .list [.str "mockin", .str d, k, t, .ofNat m] => do
    return mockIn (← Descriptor.ofName? d) (← MockKey.ofListing? k) (← Ty.ofListing? t) m
  | .list [.str "const", l] => (Literal.ofListing? l).map rules.constant
  | _ => none

namespace Program

def listedVar? (p : Program) : Doc → Option VarId
  | .list [.ofNat m, .ofNat i] => p.localVar? m i
  | _ => none

end Program

def ScriptPointer.ofListing? (p : Program) (rules : HeapRules) : Doc → Option ScriptPointer
  | .list [.str "v", .ofNat m, .ofNat i] => (p.localVar? m i).map var
  | .list [.str "vc", .ofNat m, .ofNat i] => (p.localVar? m i).map varHere
  | .list [.str "f", o, .ofNat f] => (Obj.ofListing? rules o).map (field · f)
  | .list [.str "a", o] => (Obj.ofListing? rules o).map element
  | .list [.str "s", .ofNat f] => some (static f)
  | .list [.str "ev"] => some event
  | _ => none

def ObjTest.ofListing? : Doc → Option ObjTest
  | .list [.str "all"] => some all
  | .list [.str "taint"] => some taint
  | .list [.str "odd"] => some oddSite
  | .list [.str "not", t] => (ofListing? t).map not
  | .list [.str "ty", t] => (Ty.ofListing? t).map hasTy
  | .list [.str "desc", .str d] => (Descriptor.ofName? d).map described
  | _ => none

def TransferRule.ofListing? (rules : HeapRules) : Doc → Option TransferRule
  | .list [.str "same"] => some same
  | .list [.str "drop"] => some drop
  | .list [.str "to", o] => (Obj.ofListing? rules o).map always
  | .list [.str "pred", t] => (ObjTest.ofListing? t).map whenever
  | .list [.str "retype", t] => (Ty.ofListing? t).map retype
  | _ => none

namespace EntryPoint

def listedParam? (rules : HeapRules) : Doc → Option (Nat × Obj)
  | .list [.ofNat i, o] => (Obj.ofListing? rules o).map (i, ·)
  | _ => none

def listedField? (rules : HeapRules) : Doc → Option (Obj × FieldId × Obj)
  | .list [b, .ofNat f, o] => return (← Obj.ofListing? rules b, f, ← Obj.ofListing? rules o)
  | _ => none

def listedElement? (rules : HeapRules) : Doc → Option (Obj × Obj)
  | .list [a, o] => return (← Obj.ofListing? rules a, ← Obj.ofListing? rules o)
  | _ => none

def ofListing? (rules : HeapRules) (method : MethodId) (d : Doc) : Option EntryPoint := do
  return {
    method
    thisObjs := ← (d.get "this").each? (Obj.ofListing? rules)
    params := ← (d.get "params").each? (listedParam? rules)
    fields := ← (d.get "fields").each? (listedField? rules)
    elements := ← (d.get "arrays").each? (listedElement? rules) }

end EntryPoint

namespace ScriptCommand

def ofWord? (p : Program) (rules : HeapRules) : String → List Doc → Option ScriptCommand
  | "pts", [q, os] => do
    return pointsTo (← ScriptPointer.ofListing? p rules q) (← os.each? (Obj.ofListing? rules))
  | "varobj", [v, o] => return varObj (← p.listedVar? v) (← Obj.ofListing? rules o)
  | "delta", [q] => (ScriptPointer.ofListing? p rules q).map delta
  | "entry", [.ofNat m, e] => (EntryPoint.ofListing? rules m e).map entry
  | "filter", [q, t] => return filter (← ScriptPointer.ofListing? p rules q) (← ObjTest.ofListing? t)
  | "flow", [.str kind, a, b] => do
    return flow (← FlowKind.ofName? kind) (← ScriptPointer.ofListing? p rules a)
      (← ScriptPointer.ofListing? p rules b)
  | "other", [a, b, .str origin, .ofNat key, t] => do
    return other (← ScriptPointer.ofListing? p rules a) (← ScriptPointer.ofListing? p rules b)
      origin key (← t.optional? (TransferRule.ofListing? rules))
  | "call", [.str kind, .ofNat m, .ofNat i, .ofNat callee, o] => do
    return call (← CallKind.ofName? kind) (.ofNumber m i) callee
      (← o.optional? (Obj.ofListing? rules))
  | "propagate", [q] | "push", [q] => (ScriptPointer.ofListing? p rules q).map propagate
  | "remove", [q, t] => return remove (← ScriptPointer.ofListing? p rules q) (← ObjTest.ofListing? t)
  | _, _ => none

def ofListing? (p : Program) (rules : HeapRules) : Doc → Option ScriptCommand
  | .list (.str word :: rest) => ofWord? p rules word rest
  | _ => none

end ScriptCommand

def Trigger.ofListing? (p : Program) : Doc → Option Trigger
  | .list [.str "start"] => some started
  | .list [.str "unresolved"] => some unresolved
  | .list [.str "method", .ofNat m] => some (method m)
  | .list [.str "cs_method", .ofNat m] => some (csMethod m)
  | .list [.str "edge", .ofNat m] => some (called m)
  | .list [.str "phase", .ofNat n] => some (phase n)
  | .list [.str "stmt", .ofNat m, .ofNat i] => some (stmt (.ofNumber m i))
  | .list [.str "pts", .ofNat m, .ofNat i] => (p.localVar? m i).map arrived
  | _ => none

/-- A rule; without a limit it fires once. -/
def ScriptRule.ofListing? (p : Program) (rules : HeapRules) (d : Doc) : Option ScriptRule := do
  return {
    trigger := ← Trigger.ofListing? p (d.get "on")
    commands := ← (d.get "do").each? (ScriptCommand.ofListing? p rules)
    limit := ((d.get "max").number?).getD 1 }

end PointsTo
