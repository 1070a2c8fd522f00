import PointsTo.Handler
import PointsTo.Program.Hierarchy

/-!
Static initialisers. A class is initialised once, after its superclasses, when a reachable method
may be the first to need it.
-/
namespace PointsTo

def initializerSubsignature : String := "void <clinit>()"

/-- A class and its superclasses, topmost first, each with its initialiser. -/
def initializerChain (p : Program) (c : ClassId) : List (ClassId × Option MethodId) :=
  (p.superclasses c).reverse.map fun c => (c, p.declared? c initializerSubsignature)

structure Initialized where
  classes : List ClassId := []

namespace Initialized

def has (t : Initialized) (c : ClassId) : Bool := t.classes.contains c

/-- Initialises the classes of a chain that are not, and answers their initialisers. -/
def initializeChain (t : Initialized) :
    List (ClassId × Option MethodId) → Initialized × List MethodId
  | [] => (t, [])
  | (c, m) :: rest =>
    if t.has c then t.initializeChain rest
    else
      let (t, ms) := Initialized.initializeChain ⟨t.classes ++ [c]⟩ rest
      (t, m.toList ++ ms)

/-- Initialises a class; the answer lists the initialisers to run, in order. -/
def require (t : Initialized) (p : Program) (c : ClassId) : Initialized × List MethodId :=
  if t.has c then (t, []) else t.initializeChain (initializerChain p c)

def initializeAll (t : Initialized) (p : Program) : List ClassId → Initialized × List MethodId
  | [] => (t, [])
  | c :: rest =>
    let (t, ms) := t.require p c
    let (t, later) := t.initializeAll p rest
    (t, ms ++ later)

end Initialized

def Stmt.neededClass? (p : Program) : Stmt → Option ClassId
  | .new _ (.cls c) => some c
  | .loadStatic _ f | .storeStatic f _ => p.fields[f]?.map (·.owner)
  | .invoke call => if call.isStatic then (p.resolve? call.target).bind p.ownerOf? else none
  | _ => none

/-- The classes that a method needs: its own, if it is static or a constructor, and those of its
statements. -/
def neededClasses (p : Program) (m : MethodId) : List ClassId :=
  let own := match p.methods[m]? with
    | some decl => if decl.flags.isStatic || decl.isConstructor then [decl.owner] else []
    | none => []
  own ++ (p.stmts m).filterMap (Stmt.neededClass? p)

namespace Initialized

def react (p : Program) (t : Initialized) : Event → Reaction Initialized
  | .methodReached m =>
    let (t, ms) := t.initializeAll p (neededClasses p m)
    { state := t, commands := ms.map fun m => .addEntryPoint { method := m } }
  | _ => { state := t }

end Initialized

end PointsTo
