import PointsTo.Handler

/-!
A handler that follows a script. It keeps a log of everything it is told, and a rule of the script
adds its commands when its trigger comes, up to a number of times.
-/
namespace PointsTo

inductive ObjTest
  | all
  | not (test : ObjTest)
  | hasTy (ty : Ty)
  | taint
  | described (d : Descriptor)
  /-- The allocation site has an odd index. -/
  | oddSite

def ObjTest.holds (o : Obj) : ObjTest → Bool
  | all => true
  | not test => !test.holds o
  | hasTy ty => o.ty == ty
  | taint => o.isTaint
  | described d => o.descriptor? == some d
  | oddSite => match o.site? with
    | some site => site.index % 2 == 1
    | none => false

inductive TransferRule
  | same
  | drop
  /-- Every object becomes one object in the empty context. -/
  | always (obj : Obj)
  /-- Only objects that pass a test. -/
  | whenever (test : ObjTest)
  /-- A reflective object for each type that comes, of another type. -/
  | retype (ty : Ty)

def TransferRule.transfer : TransferRule → Transfer
  | same => fun c o => some (c, o)
  | drop => fun _ _ => none
  | always obj => fun _ _ => some (ContextTable.emptyId, obj)
  | whenever test => fun c o => if test.holds o then some (c, o) else none
  | retype ty => fun _ o => some (ContextTable.emptyId, Obj.mock .reflective (.type o.ty) ty)

def TransferRule.objs : TransferRule → List Obj
  | always obj => [obj]
  | _ => []

/-- What an event offers to the commands of a rule. -/
structure Occasion where
  context : ContextId := ContextTable.emptyId
  pointer : Option PointerId := none
  delta : List CsObjId := []

/-- A pointer as a script writes it; objects are in the empty heap context. -/
inductive ScriptPointer
  | var (v : VarId)
  /-- A variable in the context of the event. -/
  | varHere (v : VarId)
  | field (base : Obj) (f : FieldId)
  | element (array : Obj)
  | static (f : FieldId)
  /-- The pointer of the event. -/
  | event

namespace ScriptPointer

def ref? (occasion : Occasion) : ScriptPointer → Option PointerRef
  | var v => some (.var ContextTable.emptyId v)
  | varHere v => some (.var occasion.context v)
  | field base f => some (.field (.plain base) f)
  | element array => some (.element (.plain array))
  | static f => some (.static f)
  | event => occasion.pointer.map .interned

def objs : ScriptPointer → List Obj
  | field o _ | element o => [o]
  | var _ | varHere _ | static _ | event => []

end ScriptPointer

inductive ScriptCommand
  | pointsTo (pointer : ScriptPointer) (objs : List Obj)
  | varObj (v : VarId) (obj : Obj)
  /-- Points a pointer to the new objects of the event. -/
  | delta (pointer : ScriptPointer)
  | entry (entry : EntryPoint)
  | filter (pointer : ScriptPointer) (keep : ObjTest)
  | flow (kind : FlowKind) (source target : ScriptPointer)
  | other (source target : ScriptPointer) (origin : String) (key : Nat)
      (transfer : Option TransferRule)
  | call (kind : CallKind) (site : StmtRef) (callee : MethodId) (receiver : Option Obj)
  | propagate (pointer : ScriptPointer)
  /-- Takes objects out of a points-to set, at the end of a phase only. -/
  | remove (pointer : ScriptPointer) (drop : ObjTest)

/-- The objects of an entry point: receivers, parameters, fields, arrays. -/
def EntryPoint.objs (e : EntryPoint) : List Obj :=
  e.thisObjs ++ e.params.map (·.2) ++ e.fields.flatMap (fun (base, _, o) => [base, o])
    ++ e.elements.flatMap fun (array, o) => [array, o]

namespace ScriptCommand

/-- The objects of a command in the order in which they are made. -/
def objs : ScriptCommand → List Obj
  | pointsTo pointer os => os ++ pointer.objs
  | varObj _ o => [o]
  | delta pointer | filter pointer _ | propagate pointer | remove pointer _ => pointer.objs
  | entry e => e.objs
  | flow _ a b => a.objs ++ b.objs
  | other a b _ _ t => (t.elim [] TransferRule.objs) ++ a.objs ++ b.objs
  | call _ _ _ receiver => receiver.toList

def commands (occasion : Occasion) : ScriptCommand → List Command
  | pointsTo pointer os =>
    (pointer.ref? occasion).toList.flatMap fun p => Command.pointsTo p (os.map ObjRef.plain)
  | varObj v o => [Command.varObj occasion.context v o]
  | delta pointer => (pointer.ref? occasion).toList.flatMap fun p =>
    Command.pointsTo p (occasion.delta.map ObjRef.interned)
  | entry e => [.addEntryPoint e]
  | filter pointer keep => (pointer.ref? occasion).toList.map fun p => .addFilter p fun o => keep.holds o
  | flow kind a b => match a.ref? occasion, b.ref? occasion with
    | some a, some b => [.addFlow (.plain kind) a b]
    | _, _ => []
  | other a b origin key t => match a.ref? occasion, b.ref? occasion with
    | some a, some b =>
      [.addFlow (.other { origin, key, transfer := t.map TransferRule.transfer }) a b]
    | _, _ => []
  | call kind site callee receiver =>
    [.addCall kind occasion.context site callee (receiver.map ObjRef.plain)]
  | propagate pointer => (pointer.ref? occasion).toList.map .propagate
  | remove _ _ => []

end ScriptCommand

inductive Trigger
  | started
  | method (m : MethodId)
  | stmt (site : StmtRef)
  | csMethod (m : MethodId)
  | called (callee : MethodId)
  | arrived (v : VarId)
  | unresolved
  /-- The end of the phase with a number, counted from zero. -/
  | phase (n : Nat)
  deriving DecidableEq

structure ScriptRule where
  trigger : Trigger
  commands : List ScriptCommand
  limit : Nat := 1

inductive LogEntry
  | started
  /-- New objects, with the size of the set, the number of edges and the number of contexts. -/
  | arrived (pointer : PointerId) (delta : List CsObjId) (size edges contexts : Nat)
  | method (m : MethodId)
  | stmt (site : StmtRef)
  | csMethod (m : CsMethodId)
  | unresolved (receiver : Option CsObjId) (context : ContextId) (site : StmtRef)
  | called (edge : CallEdge)
  | phase (removed : Nat)
  | removed (count : Nat)
  | finished

structure Script where
  /-- The rules, each with the number of times it has fired. -/
  rules : List (ScriptRule × Nat)
  phases : Nat := 0
  log : List LogEntry := []

namespace Facts

/-- The handle of an object under a context, if it has one. -/
def findObj? (f : Facts) : ObjRef → Option CsObjId
  | .interned id => some id
  | .described c o => (f.heap.objects.find? o).bind fun id => f.elements.objs.find? (c, id)

def findPointer? (f : Facts) : PointerRef → Option PointerId
  | .interned id => some id
  | .var c v => f.elements.findPointer? (.var c v)
  | .field base g => (f.findObj? base).bind fun o => f.elements.findPointer? (.field o g)
  | .element array => (f.findObj? array).bind fun o => f.elements.findPointer? (.element o)
  | .static g => f.elements.findPointer? (.static g)

end Facts

namespace Script

def ofRules (rules : List ScriptRule) : Script := { rules := rules.map fun r => (r, 0) }

def entryOf (facts : Facts) : Event → LogEntry
  | .started => .started
  | .arrived pointer delta =>
    .arrived pointer delta.toList ((facts.elements.pts? pointer).getD ObjSet.empty).size
      facts.flow.size facts.contexts.size
  | .methodReached m => .method m
  | .stmtReached site => .stmt site
  | .csMethodReached m => .csMethod m
  | .unresolved receiver context site => .unresolved receiver context site
  | .called e => .called e

/-- The trigger that an event sets off, and what it offers. -/
def triggerOf? (facts : Facts) : Event → Option (Trigger × Occasion)
  | .started => some (.started, {})
  | .arrived pointer delta =>
    match facts.elements.pointer? pointer with
    | some (.var context v) =>
      some (.arrived v, { context, pointer := some pointer, delta := delta.toList })
    | _ => none
  | .methodReached m => some (.method m, {})
  | .stmtReached site => some (.stmt site, {})
  | .csMethodReached m =>
    (facts.elements.method? m).map fun (context, method) => (.csMethod method, { context })
  | .unresolved _ context _ => some (.unresolved, { context })
  | .called e =>
    match facts.elements.site? e.site, facts.elements.method? e.callee with
    | some (context, _), some (_, callee) => some (.called callee, { context })
    | _, _ => none

/-- Fires the rules of a trigger: the rules with their new counts, and the commands. -/
def fire (trigger : Trigger) : List (ScriptRule × Nat) → List (ScriptRule × Nat) × List ScriptCommand
  | [] => ([], [])
  | (rule, n) :: rest =>
    let (rest, commands) := fire trigger rest
    if rule.trigger = trigger ∧ n < rule.limit then
      ((rule, n + 1) :: rest, rule.commands ++ commands)
    else ((rule, n) :: rest, commands)

def react (s : Script) (facts : Facts) (e : Event) : Reaction Script :=
  let s := { s with log := s.log ++ [entryOf facts e] }
  match triggerOf? facts e with
  | none => { state := s }
  | some (trigger, occasion) =>
    let (rules, commands) := fire trigger s.rules
    { state := { s with rules }
      created := commands.flatMap ScriptCommand.objs
      commands := commands.flatMap (ScriptCommand.commands occasion) }

/-- The removals of commands, each with the number of objects it takes. -/
def removals (facts : Facts) : List ScriptCommand → List (Option Removal × Nat)
  | [] => []
  | .remove pointer drop :: rest =>
    match (pointer.ref? {}).bind facts.findPointer? with
    | none => (none, 0) :: removals facts rest
    | some p =>
      let r : Removal := ⟨p, fun o => drop.holds o⟩
      let (facts, count) := facts.remove r
      (some r, count) :: removals facts rest
  | _ :: rest => removals facts rest

def phaseEnd (s : Script) (facts : Facts) (removed : Nat) : PhaseReaction Script :=
  let (rules, commands) := fire (.phase s.phases) s.rules
  let taken := removals facts commands
  { state := { rules
               phases := s.phases + 1
               log := s.log ++ [.phase removed] ++ taken.map fun (_, n) => .removed n }
    created := commands.flatMap ScriptCommand.objs
    commands := commands.flatMap (ScriptCommand.commands {})
    removals := taken.filterMap (·.1) }

def finalLog (s : Script) : List LogEntry := s.log ++ [.finished]

end Script

end PointsTo
