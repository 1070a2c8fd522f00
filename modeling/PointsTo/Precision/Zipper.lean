import PointsTo.Result

/-!
Contexts where objects mix: the methods that get objects of one type from several allocating methods
and may pass them on.
-/
namespace PointsTo

def passesOn (p : Program) (m : MethodId) : Bool :=
  (p.methods[m]?.any fun decl => decl.ret.isReference) ||
    (p.stmts m).any fun
      | .storeField _ _ _ | .storeArray _ _ => true
      | _ => false

/-- Whether a variable holds objects of one type that different methods allocate. -/
def Result.mixes (r : Result) (v : VarId) : Bool :=
  let objs := (r.pointsTo v).filterMap r.obj?
  objs.any fun a => objs.any fun b => a.ty = b.ty ∧ a.container? ≠ b.container?

def zipperMethods (r : Result) : List MethodId :=
  r.reachableMethods.filter fun m =>
    match r.program.body? m with
    | none => false
    | some body => passesOn r.program m && (body.this.toList ++ body.params).any r.mixes

end PointsTo
