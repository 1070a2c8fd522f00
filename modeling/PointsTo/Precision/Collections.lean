import PointsTo.Distinct
import PointsTo.Program.Hierarchy

/-!
Contexts for collections only: the methods of all subclasses of the collection classes.
-/
namespace PointsTo

def collectionRoots : List String := ["java.util.Collection", "java.util.Map"]

def collectionMethods (p : Program) : List MethodId :=
  let roots := collectionRoots.filterMap p.classByName?
  ascending (p.classes.toList.zipIdx.flatMap fun (decl, c) =>
    if roots.any (p.isSubclass c) then decl.methods else [])

end PointsTo
