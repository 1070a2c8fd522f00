import PointsTo.CallGraph
import PointsTo.FlowGraph

/-!
The facts that a run has found so far. They are what handlers see of the solver.
-/
namespace PointsTo

structure Facts where
  heap : Heap
  contexts : ContextTable := ContextTable.empty
  elements : Elements := {}
  flow : FlowGraph := {}
  calls : CallGraph := {}

structure Removal where
  pointer : PointerId
  drop : Obj → Bool

namespace Facts

def obj? (f : Facts) (o : CsObjId) : Option Obj :=
  (f.elements.obj? o).bind fun (_, obj) => f.heap.get? obj

/-- Whether the object behind `o` satisfies a test; unknown handles do not. -/
def objSatisfies (f : Facts) (test : Obj → Bool) (o : CsObjId) : Bool :=
  match f.obj? o with
  | some obj => test obj
  | none => false

def varPts? (f : Facts) (c : ContextId) (v : VarId) : Option ObjSet := f.elements.varPts? c v

/-- Takes objects out of a points-to set, and counts them. -/
def remove (f : Facts) (r : Removal) : Facts × Nat :=
  match f.elements.pts? r.pointer with
  | none => (f, 0)
  | some pts =>
    let doomed := f.objSatisfies r.drop
    if pts.toList.any doomed then
      ({ f with elements := f.elements.setPts r.pointer (pts.removeIf doomed).1 }, (pts.removeIf doomed).2)
    else (f, 0)

def removeAll (f : Facts) (rs : List Removal) : Facts × Nat :=
  rs.foldl (fun (f, n) r => ((f.remove r).1, n + (f.remove r).2)) (f, 0)

end Facts

end PointsTo
