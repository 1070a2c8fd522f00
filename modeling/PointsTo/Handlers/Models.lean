import PointsTo.Handler
import PointsTo.Program.Hierarchy

/-!
Calls of methods whose effect is modelled by hand. A model is chosen by the method that a call names;
recorded calls are found again by the method they stand in and by the variables they use.
-/
namespace PointsTo

structure ModeledCall (κ : Type) where
  site : StmtRef
  key : κ
  call : Invoke

structure CallModels (κ : Type) where
  /-- Methods with their models; a later entry overrides an earlier one. -/
  table : List (MethodId × κ)
  recorded : List (ModeledCall κ) := []

namespace CallModels

variable {κ : Type}

def ofProgram (p : Program) (models : List (String × κ)) : CallModels κ :=
  { table := models.filterMap fun (signature, key) =>
      (p.methodBySignature? signature).map fun m => (m, key) }

def isEmpty (t : CallModels κ) : Bool := t.table.isEmpty

def model? (t : CallModels κ) (m : MethodId) : Option κ :=
  (t.table.reverse.find? fun (n, _) => n == m).map (·.2)

def callAt? (t : CallModels κ) (p : Program) (site : StmtRef) : Option (ModeledCall κ) :=
  match p.invoke? site with
  | none => none
  | some call => ((p.resolve? call.target).bind t.model?).map fun key => ⟨site, key, call⟩

/-- Records the call at a statement if its method is modelled. -/
def record (t : CallModels κ) (p : Program) (site : StmtRef) : CallModels κ × Option κ :=
  match t.callAt? p site with
  | some c => ({ t with recorded := t.recorded ++ [c] }, some c.key)
  | none => (t, none)

def recordMethod (t : CallModels κ) (p : Program) (m : MethodId) : CallModels κ :=
  (p.stmtRefs m).foldl (fun t (site, _) => (t.record p site).1) t

def sitesIn (t : CallModels κ) (m : MethodId) : List (ModeledCall κ) :=
  t.recorded.filter fun c => c.site.method == m

/-- The recorded calls that have a variable as base or argument, each site once. -/
def watching (t : CallModels κ) (v : VarId) : List (ModeledCall κ) :=
  (t.recorded.filter fun c => c.call.base == some v || c.call.args.contains v).eraseDupsBy
    fun a b => a.site == b.site

end CallModels

end PointsTo
