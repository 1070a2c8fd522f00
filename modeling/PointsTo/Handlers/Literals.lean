import PointsTo.Handler

/-!
Objects for literals that are no allocations of their own: the null reference and numbers.
-/
namespace PointsTo

structure LiteralAssigns where
  assigns : List (MethodId × VarId × Literal) := []

namespace LiteralAssigns

def record (s : LiteralAssigns) (p : Program) (accepts : Literal → Bool) (site : StmtRef) :
    LiteralAssigns :=
  match p.stmt? site with
  | some (.literal v value) =>
    if accepts value then ⟨s.assigns ++ [(site.method, v, value)]⟩ else s
  | _ => s

def inMethod (s : LiteralAssigns) (m : MethodId) : List (VarId × Literal) :=
  s.assigns.filterMap fun (n, v, value) => if n = m then some (v, value) else none

end LiteralAssigns

def nullObj : Obj := Obj.mock .null (.literal .null) .null

/-- The object of a number has the type of the variable it is assigned to. -/
def numberObj? (p : Program) (v : VarId) (value : Literal) : Option Obj :=
  p.vars[v]?.map fun decl => Obj.mock .number (.literal value) decl.ty

namespace LiteralAssigns

/-- Gives the object of each assignment to its variable when a method is reached in a context. -/
def react (p : Program) (accepts : Literal → Bool) (obj? : VarId → Literal → Option Obj)
    (s : LiteralAssigns) (facts : Facts) : Event → Reaction LiteralAssigns
  | .stmtReached site => { state := s.record p accepts site }
  | .csMethodReached m =>
    match facts.elements.method? m with
    | none => { state := s }
    | some (context, method) =>
      let made := (s.inMethod method).filterMap fun (v, value) => (obj? v value).map fun o => (v, o)
      { state := s
        created := made.map (·.2)
        commands := made.map fun (v, o) => Command.varObj context v o }
  | _ => { state := s }

def reactNull (p : Program) : LiteralAssigns → Facts → Event → Reaction LiteralAssigns :=
  react p (· == .null) fun _ _ => some nullObj

def reactNumbers (p : Program) : LiteralAssigns → Facts → Event → Reaction LiteralAssigns :=
  react p Literal.isNumber (numberObj? p)

end LiteralAssigns

end PointsTo
