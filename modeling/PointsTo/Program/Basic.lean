import PointsTo.Program.Body

/-!
Programs: classes, fields, methods and variables, each in a list of its own and known by its
position in it.
-/
namespace PointsTo

structure ClassDecl where
  name : String
  superclass : Option ClassId
  interfaces : List ClassId
  isInterface : Bool
  isAbstract : Bool
  /-- Application code, as opposed to a library. -/
  isApplication : Bool
  methods : List MethodId
  fields : List FieldId
  deriving DecidableEq

structure FieldDecl where
  name : String
  owner : ClassId
  ty : Ty
  isStatic : Bool
  deriving DecidableEq

structure MethodFlags where
  isStatic : Bool
  isAbstract : Bool
  isNative : Bool
  deriving DecidableEq

structure MethodDecl where
  name : String
  owner : ClassId
  params : List Ty
  ret : Ty
  flags : MethodFlags
  /-- The spelling `R name(P1,P2)`. -/
  subsignature : String
  body : Option Body
  deriving DecidableEq

namespace MethodDecl

def isConstructor (m : MethodDecl) : Bool := m.name == "<init>"

def isClassInitializer (m : MethodDecl) : Bool := m.name == "<clinit>"

end MethodDecl

structure VarDecl where
  name : String
  ty : Ty
  method : MethodId
  deriving DecidableEq

structure Program where
  classes : Array ClassDecl := #[]
  fields : Array FieldDecl := #[]
  methods : Array MethodDecl := #[]
  vars : Array VarDecl := #[]
  main : Option MethodId := none

namespace Program

def body? (p : Program) (m : MethodId) : Option Body := p.methods[m]?.bind (·.body)

def stmts (p : Program) (m : MethodId) : List Stmt :=
  match p.body? m with
  | some b => b.stmts
  | none => []

def stmt? (p : Program) (at_ : StmtRef) : Option Stmt := (p.stmts at_.method)[at_.index]?

def invoke? (p : Program) (site : StmtRef) : Option Invoke := (p.stmt? site).bind Stmt.invoke?

def stmtRefs (p : Program) (m : MethodId) : List (StmtRef × Stmt) :=
  (p.stmts m).zipIdx.map fun (s, i) => (⟨m, i⟩, s)

def isStatic (p : Program) (m : MethodId) : Bool :=
  match p.methods[m]? with
  | some d => d.flags.isStatic
  | none => false

def isAbstract (p : Program) (m : MethodId) : Bool :=
  match p.methods[m]? with
  | some d => d.flags.isAbstract
  | none => false

def ownerOf? (p : Program) (m : MethodId) : Option ClassId := p.methods[m]?.map (·.owner)

def this? (p : Program) (m : MethodId) : Option VarId := (p.body? m).bind (·.this)

end Program

end PointsTo
