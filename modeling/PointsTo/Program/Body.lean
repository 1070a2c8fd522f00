import PointsTo.Ty

/-!
Method bodies: lists of three-address statements over variables, and exception tables. Variables
are numbered over the whole program.
-/
namespace PointsTo

abbrev MethodId := Nat
abbrev FieldId := Nat
abbrev VarId := Nat

/-- A statement, by its method and its place in the body. -/
structure StmtRef where
  method : MethodId
  index : Nat
  deriving DecidableEq, Ord

/-- The statement with a number, of which only the lower 32 bits count. -/
def StmtRef.ofNumber (method : MethodId) (number : Nat) : StmtRef := ⟨method, number % (1 <<< 32)⟩

inductive Literal
  | null
  | int (value : Int)
  /-- A floating point constant, by its 64-bit pattern. -/
  | float (bits : Nat)
  | str (text : String)
  | cls (ty : Ty)
  deriving DecidableEq

namespace Literal

def ofFloat (x : Float) : Literal := float x.toBits.toNat

def isNumber : Literal → Bool
  | int _ | float _ => true
  | _ => false

end Literal

/-- A method as a call site names it: a class and a spelling `R name(P1,P2)`. -/
structure MethodRef where
  owner : ClassId
  subsignature : String
  deriving DecidableEq

inductive InvokeKind
  | virtual | interface | special | static | dynamic
  deriving DecidableEq

/-- Whether the callee depends on the type of the receiver at run time. -/
def InvokeKind.isDispatched : InvokeKind → Bool
  | virtual | interface => true
  | special | static | dynamic => false

structure Invoke where
  kind : InvokeKind
  target : MethodRef
  base : Option VarId
  args : List VarId
  result : Option VarId
  deriving DecidableEq

/-- A call is static exactly when it has no receiver, whatever its kind says. -/
def Invoke.isStatic (call : Invoke) : Bool := call.base.isNone

inductive Stmt
  | new (lhs : VarId) (ty : Ty)
  | literal (lhs : VarId) (value : Literal)
  | copy (lhs rhs : VarId)
  | cast (lhs rhs : VarId) (ty : Ty)
  | loadField (lhs base : VarId) (field : FieldId)
  | storeField (base : VarId) (field : FieldId) (rhs : VarId)
  | loadStatic (lhs : VarId) (field : FieldId)
  | storeStatic (field : FieldId) (rhs : VarId)
  | loadArray (lhs base : VarId)
  | storeArray (base rhs : VarId)
  | invoke (call : Invoke)
  | ret (value : Option VarId)
  | throw (value : VarId)
  | caught (lhs : VarId)
  | nop
  deriving DecidableEq

namespace Stmt

def target? : Stmt → Option VarId
  | new lhs _ | literal lhs _ | copy lhs _ | cast lhs _ _ | loadField lhs _ _ | loadStatic lhs _
  | loadArray lhs _ | caught lhs => some lhs
  | invoke call => call.result
  | storeField _ _ _ | storeStatic _ _ | storeArray _ _ | ret _ | throw _ | nop => none

def uses : Stmt → List VarId
  | new _ _ | literal _ _ | loadStatic _ _ | caught _ | nop => []
  | copy _ rhs | cast _ rhs _ | storeStatic _ rhs => [rhs]
  | loadField _ base _ | loadArray _ base => [base]
  | storeField base _ rhs | storeArray base rhs => [base, rhs]
  | invoke call => call.base.toList ++ call.args
  | ret value => value.toList
  | throw value => [value]

def invoke? : Stmt → Option Invoke
  | invoke call => some call
  | _ => none

/-- The same statement with every variable number moved up by `offset`. -/
def shift (offset : Nat) : Stmt → Stmt
  | new lhs ty => new (offset + lhs) ty
  | literal lhs value => literal (offset + lhs) value
  | copy lhs rhs => copy (offset + lhs) (offset + rhs)
  | cast lhs rhs ty => cast (offset + lhs) (offset + rhs) ty
  | loadField lhs base f => loadField (offset + lhs) (offset + base) f
  | storeField base f rhs => storeField (offset + base) f (offset + rhs)
  | loadStatic lhs f => loadStatic (offset + lhs) f
  | storeStatic f rhs => storeStatic f (offset + rhs)
  | loadArray lhs base => loadArray (offset + lhs) (offset + base)
  | storeArray base rhs => storeArray (offset + base) (offset + rhs)
  | invoke call =>
    invoke { call with
      base := call.base.map (offset + ·)
      args := call.args.map (offset + ·)
      result := call.result.map (offset + ·) }
  | ret value => ret (value.map (offset + ·))
  | throw value => throw (offset + value)
  | caught lhs => caught (offset + lhs)
  | nop => nop

end Stmt

/-- An entry of an exception table: it protects the statements from `start` to before `stop`. -/
structure CatchHandler where
  start : Nat
  stop : Nat
  /-- The declared type; none catches everything. -/
  catchTy : Option Ty
  var : VarId
  deriving DecidableEq

def CatchHandler.protects (h : CatchHandler) (index : Nat) : Bool :=
  h.start ≤ index && index < h.stop

structure Body where
  this : Option VarId
  params : List VarId
  vars : List VarId
  stmts : List Stmt
  /-- The variables that the body returns, each once, in order of their first return. -/
  returns : List VarId
  handlers : List CatchHandler
  deriving DecidableEq

namespace Body

/-- The entries that protect a statement, in table order. -/
def handlersOf (b : Body) (index : Nat) : List CatchHandler :=
  b.handlers.filter fun h => h.protects index

end Body

end PointsTo
