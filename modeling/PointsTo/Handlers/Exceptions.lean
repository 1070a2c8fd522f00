import PointsTo.Handler
import PointsTo.Program.Hierarchy

/-!
Exceptions. An object thrown at a statement reaches the first handler of the method that protects
the statement and takes the object's type; if there is none it leaves the method, and is thrown again
at every call of it.
-/
namespace PointsTo

/-- The first handler at a statement that takes an object of a type. -/
def catcher? (p : Program) (m : MethodId) (index : Nat) (ty : Ty) : Option CatchHandler :=
  match p.body? m with
  | none => none
  | some body => (body.handlersOf index).find? fun h =>
    match h.catchTy with
    | none => true
    | some caught => p.isSubtype ty caught

structure Exceptions where
  /-- The throwing statements seen so far, with the variable they throw. -/
  throwSites : List (VarId × StmtRef) := []
  /-- The objects thrown at statements. -/
  thrown : List (CsMethodId × StmtRef × CsObjId) := []
  /-- The objects that leave methods. -/
  uncaught : List (CsMethodId × CsObjId) := []

structure Throw where
  method : CsMethodId
  site : StmtRef
  objs : List CsObjId

namespace Exceptions

/-- Adds objects to their variable; variables stand in the order of their first object. -/
def addCaught (v : VarId) (o : CsObjId) : List (VarId × List CsObjId) → List (VarId × List CsObjId)
  | [] => [(v, [o])]
  | (w, os) :: rest => if w = v then (w, os ++ [o]) :: rest else (w, os) :: addCaught v o rest

/-- The callers of a method, as statements at which its objects are thrown again. -/
def callers (facts : Facts) (m : CsMethodId) (objs : List CsObjId) : List Throw :=
  (facts.calls.edgesInto m).filterMap fun e =>
    match facts.elements.site? e.site with
    | none => none
    | some (c, site) => (facts.elements.findMethod? c site.method).map fun caller =>
      ⟨caller, site, objs⟩

/-- One throw: what is caught, and the throws it leads to. -/
def throwOne (p : Program) (facts : Facts) (s : Exceptions) (t : Throw) :
    Exceptions × List Command × List Throw :=
  let fresh := t.objs.filter fun o => !s.thrown.contains (t.method, t.site, o)
  match facts.elements.method? t.method with
  | none => (s, [], [])
  | some (context, m) =>
    let landing := fresh.map fun o =>
      (o, (facts.obj? o).bind fun obj => catcher? p m t.site.index obj.ty)
    let caught := landing.foldl (fun vars (o, h) =>
      match h with
      | some h => addCaught h.var o vars
      | none => vars) []
    let escaping := landing.filterMap fun (o, h) => if h.isNone then some o else none
    let escaped := escaping.filter fun o => !s.uncaught.contains (t.method, o)
    let s := { s with
      thrown := s.thrown ++ fresh.map fun o => (t.method, t.site, o)
      uncaught := s.uncaught ++ escaped.map fun o => (t.method, o) }
    (s, caught.map fun (v, os) => .addPointsTo (.var context v) (os.map ObjRef.interned),
      if escaped.isEmpty then [] else callers facts t.method escaped)

/-- Performs throws, the latest first, until none are left. -/
def throwAll (p : Program) (facts : Facts) : Nat → Exceptions → List Throw → Exceptions × List Command
  | 0, s, _ => (s, [])
  | _, s, [] => (s, [])
  | n + 1, s, t :: rest =>
    let (s, caught, more) := throwOne p facts s t
    let (s, later) := throwAll p facts n s (more.reverse ++ rest)
    (s, caught ++ later)

/-- Steps that suffice for a throw: one for itself, and one for each call edge whenever a statement
at a call edge, or the first, gets an object that is new to it. -/
def throwBound (facts : Facts) (t : Throw) : Nat :=
  let edges := facts.calls.edges.length
  2 + (edges + 1) * t.objs.length * edges

def throwAt (p : Program) (facts : Facts) (s : Exceptions) (t : Throw) : Exceptions × List Command :=
  throwAll p facts (throwBound facts t) s [t]

def throwEach (p : Program) (facts : Facts) (s : Exceptions) : List Throw → Exceptions × List Command
  | [] => (s, [])
  | t :: rest =>
    let (s, caught) := throwAt p facts s t
    let (s, later) := throwEach p facts s rest
    (s, caught ++ later)

def throwsOf (facts : Facts) (s : Exceptions) (context : ContextId) (v : VarId) (delta : ObjSet) :
    List Throw :=
  (s.throwSites.filter fun (w, _) => w == v).filterMap fun (_, site) =>
    (facts.elements.findMethod? context site.method).map fun m => ⟨m, site, delta.toList⟩

/-- What a callee lets escape, in order of the objects. -/
def escapedFrom (s : Exceptions) (m : CsMethodId) : List CsObjId :=
  (ObjSet.ofList (s.uncaught.filterMap fun (n, o) => if n = m then some o else none)).toList

def react (p : Program) (s : Exceptions) (facts : Facts) : Event → Reaction Exceptions
  | .stmtReached site =>
    match p.stmt? site with
    | some (.throw v) => { state := { s with throwSites := s.throwSites ++ [(v, site)] } }
    | _ => { state := s }
  | .arrived pointer delta =>
    match facts.elements.pointer? pointer with
    | some (.var context v) =>
      let (s, commands) := throwEach p facts s (s.throwsOf facts context v delta)
      { state := s, commands }
    | _ => { state := s }
  | .called e =>
    match s.escapedFrom e.callee, facts.elements.site? e.site with
    | [], _ => { state := s }
    | escaped, some (c, site) =>
      match facts.elements.findMethod? c site.method with
      | some caller =>
        let (s, commands) := throwAt p facts s ⟨caller, site, escaped⟩
        { state := s, commands }
      | none => { state := s }
    | _, none => { state := s }
  | _ => { state := s }

/-- The objects behind a selection of facts, without contexts, in order. -/
def objsBehind (facts : Facts) (os : List CsObjId) : List ObjId :=
  (ObjSet.ofList (os.filterMap fun o => (facts.elements.obj? o).map (·.2))).toList

def thrownAt (s : Exceptions) (facts : Facts) (site : StmtRef) : List ObjId :=
  objsBehind facts (s.thrown.filterMap fun (_, at_, o) => if at_ = site then some o else none)

def uncaughtOf (s : Exceptions) (facts : Facts) (m : MethodId) : List ObjId :=
  objsBehind facts (s.uncaught.filterMap fun (n, o) =>
    if (facts.elements.method? n).map (·.2) = some m then some o else none)

end Exceptions

end PointsTo
