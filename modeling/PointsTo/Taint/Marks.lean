import PointsTo.Facts
import PointsTo.Taint.Flow

/-!
Taint objects. An object of taint carries the number of the point it comes from; passing it on may
change its type but not the point.
-/
namespace PointsTo

structure Marks where
  points : Table SourcePoint := Table.empty

namespace Marks

def size (t : Marks) : Nat := t.points.size

def mark (t : Marks) (point : SourcePoint) (ty : Ty) : Marks × Obj :=
  let (points, i) := t.points.intern point
  (⟨points⟩, Obj.mock .taint (.index i) ty)

def point? (t : Marks) (o : Obj) : Option SourcePoint :=
  if o.isTaint then
    match o.mockKey? with
    | some (.index i) => t.points.get? i
    | _ => none
  else none

end Marks

/-- The same taint on a value of another type; other objects are not taint. -/
def retaint? (ty : Ty) (o : Obj) : Option Obj :=
  if o.isTaint then o.mockKey?.map fun key => Obj.mock .taint key ty else none

/-- Passes on taint only, with a type, in the empty heap context. -/
def taintTransfer (ty : Ty) : Transfer := fun _ o =>
  (retaint? ty o).map fun o => (ContextTable.emptyId, o)

end PointsTo
