import PointsTo.Handler
import PointsTo.Options

/-!
Threads. A virtual machine starts a program on a main thread inside two thread groups; every thread
that is started may be the current one.
-/
namespace PointsTo

structure ThreadMethods where
  implicit : Bool
  startThis : Option VarId
  /-- The method that answers the current thread, and the variable that it returns. -/
  current : Option (MethodId × VarId)
  systemGroupInit : Option MethodId
  mainGroupInit : Option MethodId
  threadInit : Option MethodId
  groupTy : Ty
  threadTy : Ty

def ThreadMethods.ofProgram (p : Program) (o : Options) : ThreadMethods :=
  { implicit := o.implicitEntries
    startThis := (p.methodBySignature? "<java.lang.Thread: void start()>").bind p.this?
    current := (p.methodBySignature? "<java.lang.Thread: java.lang.Thread currentThread()>").bind
      fun m => ((p.body? m).bind fun b => b.returns.head?).map fun v => (m, v)
    systemGroupInit := p.methodBySignature? "<java.lang.ThreadGroup: void <init>()>"
    mainGroupInit := p.methodBySignature?
      "<java.lang.ThreadGroup: void <init>(java.lang.ThreadGroup,java.lang.String)>"
    threadInit := p.methodBySignature?
      "<java.lang.Thread: void <init>(java.lang.ThreadGroup,java.lang.String)>"
    groupTy := Ty.ofClass? (p.classByName? "java.lang.ThreadGroup")
    threadTy := Ty.ofClass? (p.classByName? "java.lang.Thread") }

namespace ThreadMethods

def systemGroup (t : ThreadMethods) : Obj :=
  Obj.mock .entryPoint (.name "<system-thread-group>") t.groupTy

def mainGroup (t : ThreadMethods) : Obj :=
  Obj.mock .entryPoint (.name "<main-thread-group>") t.groupTy

def mainThread (t : ThreadMethods) : Obj := Obj.mock .thread (.name "<main-thread>") t.threadTy

end ThreadMethods

structure Threads where
  methods : ThreadMethods
  started : ObjSet := ObjSet.empty
  mainThread : Option Obj := none
  /-- The contexts in which the current thread is asked for. -/
  askedIn : List ContextId := []

namespace Threads

/-- The main thread and all that were started. -/
def running (s : Threads) : List ObjRef :=
  (s.mainThread.map ObjRef.plain).toList ++ s.started.toList.map ObjRef.interned

/-- The two groups and the main thread are made and initialised. -/
def start (rules : HeapRules) (s : Threads) : Reaction Threads :=
  let t := s.methods
  let name := rules.constant (.str "main")
  let entry (init : Option MethodId) (this : Obj) (params : List (Nat × Obj)) : List Command :=
    init.toList.map fun m => .addEntryPoint { method := m, thisObjs := [this], params }
  { state := { s with mainThread := some t.mainThread }
    created := [t.systemGroup, t.mainGroup, name, t.mainThread]
    commands := entry t.systemGroupInit t.systemGroup []
      ++ entry t.mainGroupInit t.mainGroup [(0, t.systemGroup), (1, name)]
      ++ entry t.threadInit t.mainThread [(0, t.mainGroup), (1, name)] }

/-- Threads have been started; they may be current wherever that is asked. -/
def launch (s : Threads) (delta : ObjSet) : Reaction Threads :=
  let (started, fresh) := s.started.union delta
  { state := { s with started }
    commands := match s.methods.current with
      | none => []
      | some (_, result) => s.askedIn.flatMap fun c =>
        Command.pointsTo (.var c result) (fresh.toList.map ObjRef.interned) }

def ask (s : Threads) (c : ContextId) (result : VarId) : Reaction Threads :=
  { state := { s with askedIn := if s.askedIn.contains c then s.askedIn else s.askedIn ++ [c] }
    commands := Command.pointsTo (.var c result) s.running }

def react (s : Threads) (facts : Facts) : Event → Reaction Threads
  | .started => if s.methods.implicit then s.start facts.heap.rules else { state := s }
  | .arrived pointer delta =>
    match facts.elements.pointer? pointer with
    | some (.var _ v) => if s.methods.startThis = some v then s.launch delta else { state := s }
    | _ => { state := s }
  | .csMethodReached m =>
    match s.methods.current, facts.elements.method? m with
    | some (current, result), some (c, method) =>
      if method = current then s.ask c result else { state := s }
    | _, _ => { state := s }
  | _ => { state := s }

end Threads

end PointsTo
