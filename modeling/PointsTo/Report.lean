import PointsTo.Document.Json
import PointsTo.Result

/-!
Reports of results with numbers that do not depend on the order in which a run found things. Objects
are numbered by their descriptions, contexts by their elements, and pointers by what they are.
-/
namespace PointsTo

/-- An object under a heap context, by numbers: the context, then the object. -/
abbrev CsObjNo := Nat × Nat

inductive ElemNo
  | call (site : StmtRef)
  | obj (o : Nat)
  | type (c : ClassId)

def ElemNo.key : ElemNo → List Nat
  | call site => [0, site.method, site.index]
  | obj o => [1, o]
  | type c => [2, c]

inductive PointerNo
  | var (v : VarId) (context : Nat)
  | field (base : CsObjNo) (f : FieldId)
  | element (array : CsObjNo)
  | static (f : FieldId)

def PointerNo.key : PointerNo → List Nat
  | var v context => [0, v, context]
  | field (context, o) f => [1, o, context, f]
  | element (context, o) => [2, o, context]
  | static f => [3, f]

def placesOf (order : List Nat) : Array Nat :=
  order.zipIdx.foldl (fun places (item, i) => places.setIfInBounds item i)
    (Array.replicate order.length 0)

/-- The items by position, in the order of their keys. -/
def orderBy (keys : List (List Nat)) : List Nat :=
  (sortedBy (·.1) keys.zipIdx).map (·.2)

def Obj.reportText (p : Program) (o : Obj) : String :=
  o.describe p ++ match o.container? with
    | some m => "@" ++ toString m
    | none => ""

/-- The numbers of objects, contexts and pointers by their handles. -/
structure Numbering where
  objs : Array Nat
  contexts : Array Nat
  pointers : Array Nat

namespace Numbering

def obj (n : Numbering) (o : ObjId) : Nat := n.objs.getD o 0

def context (n : Numbering) (c : ContextId) : Nat := n.contexts.getD c 0

def pointer (n : Numbering) (p : PointerId) : Nat := n.pointers.getD p 0

def elem (n : Numbering) : ContextElem → ElemNo
  | .callSite site => .call site
  | .object o => .obj (n.obj o)
  | .type c => .type c

def csObj (n : Numbering) (f : Facts) (o : CsObjId) : CsObjNo :=
  match f.elements.obj? o with
  | some (c, o) => (n.context c, n.obj o)
  | none => (0, 0)

def csObjs (n : Numbering) (f : Facts) (os : List CsObjId) : List CsObjNo :=
  sortedBy (fun (c, o) => [c, o]) (os.map (n.csObj f))

def objsOf (n : Numbering) (os : List ObjId) : List Nat := (os.map n.obj).mergeSort (· ≤ ·)

def pointerNo (n : Numbering) (f : Facts) : Pointer → PointerNo
  | .var c v => .var v (n.context c)
  | .field o g => .field (n.csObj f o) g
  | .element o => .element (n.csObj f o)
  | .static g => .static g

def objOrder (p : Program) (h : Heap) : List (String × Nat) :=
  ((h.objects.items.toList.map (Obj.reportText p)).zipIdx).mergeSort fun a b => a.1 ≤ b.1

def contextOrder (n : Numbering) (t : ContextTable) : List Nat :=
  orderBy (t.entries.items.toList.map fun c => c.flatMap fun e => (n.elem e).key)

def pointerOrder (n : Numbering) (f : Facts) : List Nat :=
  orderBy (f.elements.pointers.items.toList.map fun p => (n.pointerNo f p).key)

def ofFacts (p : Program) (f : Facts) : Numbering :=
  let n : Numbering := ⟨placesOf ((objOrder p f.heap).map (·.2)), #[], #[]⟩
  let n := { n with contexts := placesOf (n.contextOrder f.contexts) }
  { n with pointers := placesOf (n.pointerOrder f) }

end Numbering

structure CallNo where
  kind : CallKind
  context : Nat
  site : StmtRef
  calleeContext : Nat
  callee : MethodId

inductive FlowExtra
  | nothing
  | cast (ty : String)
  | info (origin : String) (key : Nat) (transfer : Bool)

/-- The text by which edges of one kind are ordered. -/
def FlowExtra.text : FlowExtra → String
  | nothing => "null"
  | cast ty => Json.quote ty
  | info origin key transfer =>
    "[" ++ Json.quote origin ++ "," ++ toString key ++ "," ++ dumpBool transfer ++ "]"

structure FlowNo where
  source : Nat
  target : Nat
  kind : FlowKind
  extra : FlowExtra

namespace CallNo

def numbers (c : CallNo) : List Nat :=
  [c.context, c.site.method, c.site.index, c.calleeContext, c.callee]

/-- By the name of the kind, then by contexts, site and callee. -/
def le (a b : CallNo) : Bool :=
  if a.kind = b.kind then lexLe a.numbers b.numbers else a.kind.name < b.kind.name

end CallNo

namespace FlowNo

/-- By source, target, the name of the kind, and what the edge carries. -/
def le (a b : FlowNo) : Bool :=
  if a.source ≠ b.source then a.source < b.source
  else if a.target ≠ b.target then a.target < b.target
  else if a.kind ≠ b.kind then a.kind.name < b.kind.name
  else a.extra.text ≤ b.extra.text

end FlowNo

namespace Numbering

def callNo? (n : Numbering) (f : Facts) (e : CallEdge) : Option CallNo :=
  match f.elements.site? e.site, f.elements.method? e.callee with
  | some (c, site), some (d, m) => some ⟨e.kind, n.context c, site, n.context d, m⟩
  | _, _ => none

def calls (n : Numbering) (f : Facts) (es : List CallEdge) : List CallNo :=
  es.filterMap (n.callNo? f)

def flowNo (n : Numbering) (p : Program) (e : FlowEdge) : FlowNo :=
  { source := n.pointer e.source
    target := n.pointer e.target
    kind := e.kind
    extra := match e.label with
      | .plain _ => .nothing
      | .cast ty => .cast (p.tyName ty)
      | .other info => .info info.origin info.key info.transfer.isSome }

def csMethod? (n : Numbering) (f : Facts) (m : CsMethodId) : Option (Nat × MethodId) :=
  (f.elements.method? m).map fun (c, m) => (n.context c, m)

end Numbering

namespace Result

def objTexts (r : Result) : List String := (Numbering.objOrder r.program r.facts.heap).map (·.1)

def contextNos (r : Result) (n : Numbering) : List (List ElemNo) :=
  (n.contextOrder r.facts.contexts).map fun c => (r.facts.contexts.elems c).map n.elem

def pointerNos (r : Result) (n : Numbering) : List (PointerNo × Option (List CsObjNo)) :=
  (n.pointerOrder r.facts).filterMap fun id => (r.facts.elements.pointer? id).map fun p =>
    (n.pointerNo r.facts p, (r.facts.elements.pts? id).map fun set => n.csObjs r.facts set.toList)

def reachedNos (r : Result) (n : Numbering) : List (Nat × MethodId) :=
  r.facts.calls.reachable.filterMap (n.csMethod? r.facts)

def callNos (r : Result) (n : Numbering) : List CallNo := n.calls r.facts r.facts.calls.edges

def flowNos (r : Result) (n : Numbering) : List FlowNo :=
  r.facts.flow.edges.toList.map (n.flowNo r.program)

/-- The statements of the program at which objects are thrown, with the objects. -/
def thrownNos (r : Result) (n : Numbering) : List (StmtRef × List Nat) :=
  match r.exceptions? with
  | none => []
  | some s =>
    let sites := (s.thrown.map fun (_, site, _) => site).eraseDups.filter fun site =>
      (r.program.stmt? site).isSome
    (sortedBy (fun site => [site.method, site.index]) sites).map fun site =>
      (site, n.objsOf (s.thrownAt r.facts site))

/-- The methods that objects leave, with the objects. -/
def uncaughtNos (r : Result) (n : Numbering) : List (MethodId × List Nat) :=
  match r.exceptions? with
  | none => []
  | some s =>
    (ascending (s.uncaught.filterMap fun (m, _) => (r.facts.elements.method? m).map (·.2))).map
      fun m => (m, n.objsOf (s.uncaughtOf r.facts m))

end Result

end PointsTo
