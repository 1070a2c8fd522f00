import PointsTo.Program.Names

/-!
Building a program step by step. Every step gives the new class, field, method or variable the next
free position. A body is written over local numbers, receiver first, then parameters, then locals.
-/
namespace PointsTo

/-- A body over local variable numbers. -/
structure BodyText where
  locals : List (String × Ty)
  stmts : List Stmt
  handlers : List CatchHandler

namespace Program

def push (p : Program) (d : ClassDecl) : Program := { p with classes := p.classes.push d }

def addClass (p : Program) (name : String) (superclass : Option ClassId) : Program :=
  p.push
    { name, superclass, interfaces := [], isInterface := false, isAbstract := false
      isApplication := true, methods := [], fields := [] }

def addInterface (p : Program) (name : String) (extended : List ClassId) : Program :=
  p.push
    { name, superclass := none, interfaces := extended, isInterface := true, isAbstract := true
      isApplication := true, methods := [], fields := [] }

def addInterfaces (p : Program) (c : ClassId) (interfaces : List ClassId) : Program :=
  { p with classes := p.classes.modify c fun d => { d with interfaces := d.interfaces ++ interfaces } }

def setAbstract (p : Program) (c : ClassId) : Program :=
  { p with classes := p.classes.modify c fun d => { d with isAbstract := true } }

def setLibrary (p : Program) (c : ClassId) : Program :=
  { p with classes := p.classes.modify c fun d => { d with isApplication := false } }

def addField (p : Program) (owner : ClassId) (name : String) (ty : Ty) (isStatic : Bool) : Program :=
  { p with
    fields := p.fields.push { name, owner, ty, isStatic }
    classes := p.classes.modify owner fun d => { d with fields := d.fields ++ [p.fields.size] } }

def addMethod (p : Program) (owner : ClassId) (name : String) (params : List Ty) (ret : Ty)
    (flags : MethodFlags) : Program :=
  { p with
    methods := p.methods.push <|
      MethodDecl.mk name owner params ret flags (p.spell name params ret) none
    classes := p.classes.modify owner fun d => { d with methods := d.methods ++ [p.methods.size] } }

/-- The reference by which a call site names a method. -/
def refTo (p : Program) (m : MethodId) : MethodRef :=
  match p.methods[m]? with
  | some d => ⟨d.owner, d.subsignature⟩
  | none => ⟨0, ""⟩

/-- The variables that the statements return, each once. -/
def returnedVars (stmts : List Stmt) : List VarId :=
  (stmts.filterMap fun
    | .ret (some v) => some v
    | _ => none).eraseDups

/-- Gives a method its body, with fresh variables for the local numbers. -/
def setBody (p : Program) (m : MethodId) (text : BodyText) : Program :=
  match p.methods[m]? with
  | none => p
  | some d =>
    let this := if d.flags.isStatic then [] else [("this", Ty.cls d.owner)]
    let params := d.params.zipIdx.map fun (ty, i) => ("p" ++ toString i, ty)
    let locals := this ++ params ++ text.locals
    let offset := p.vars.size
    let stmts := text.stmts.map (Stmt.shift offset)
    let body : Body :=
      { this := if d.flags.isStatic then none else some offset
        params := (List.range params.length).map (offset + this.length + ·)
        vars := (List.range locals.length).map (offset + ·)
        stmts
        returns := returnedVars stmts
        handlers := text.handlers.map fun h => { h with var := offset + h.var } }
    { p with
      vars := p.vars ++ (locals.map fun (name, ty) => VarDecl.mk name ty m).toArray
      methods := p.methods.modify m fun d => { d with body := some body } }

def setMain (p : Program) (m : MethodId) : Program := { p with main := some m }

end Program

end PointsTo
